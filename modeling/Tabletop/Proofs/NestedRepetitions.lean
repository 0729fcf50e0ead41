import Tabletop.Proofs.Neighbours
import Tabletop.Proofs.Repeating
import Tabletop.Proofs.Shape

/-!
Repetitions of repetitions. As long as all of its marks are read, a query gives the answers to its last segment
that one repetition of this segment would give, as often as the product of its counts says; beyond that nothing
is answered. Main statements: counts one behind the other can be multiplied out, which shows neither in the
leaves nor on the tray, and a query with too many marks has a result without dice and leaves every tray as it is.
-/

namespace Tabletop.Query

open Arithmetic

section Flat

variable {σ : Type} [DieSource σ] {evaluator : Arithmetic.Evaluator} {mode : Scoring}

/-- The leaves of an answer, together with the tray, are those of one repetition. -/
theorem leaves_answer {query : String} {tray : Tray σ}
    (hmarks : query.toList.countP isRepetitionMark ≤ maxRepetitions) :
    ((answer evaluator query mode tray).1.map Result.leaves, (answer evaluator query mode tray).2) =
      repeatAnswer (answerWithin evaluator 0 (lastSegment query.toList) mode)
        (counts query.toList).prod [] tray := by
  obtain ⟨hbehind, hcounts⟩ := behind_maxRepetitions hmarks
  cases h : answer evaluator query mode tray with
  | mk outcome after =>
    cases outcome with
    | ok r =>
      obtain ⟨hlength, hleaves⟩ := answers_of_answerWithin h
      rw [hcounts] at hlength
      rw [hbehind] at hleaves
      rw [← hlength, repeatAnswer_of_answers hleaves]
      rfl
    | error e =>
      obtain ⟨leaves, tray₁, hlength, hleaves, hfail⟩ := answers_of_answerWithin_error h
      rw [hcounts] at hlength
      rw [hbehind] at hleaves hfail
      rw [repeatAnswer_of_answers_error hleaves hlength hfail]
      rfl

/-- Queries all of whose marks are read are answered alike if they repeat the same segment equally often. -/
theorem leaves_answer_congr {query query' : String} (tray : Tray σ)
    (hmarks : query.toList.countP isRepetitionMark ≤ maxRepetitions)
    (hmarks' : query'.toList.countP isRepetitionMark ≤ maxRepetitions)
    (hlast : lastSegment query.toList = lastSegment query'.toList)
    (hcounts : (counts query.toList).prod = (counts query'.toList).prod) :
    (answer evaluator query mode tray).1.map Result.leaves =
        (answer evaluator query' mode tray).1.map Result.leaves ∧
      (answer evaluator query mode tray).2 = (answer evaluator query' mode tray).2 := by
  have h := @leaves_answer σ _ evaluator mode query tray hmarks
  rw [hlast, hcounts, ← leaves_answer hmarks'] at h
  exact Prod.mk.inj h

end Flat

section Counted

variable {σ : Type} [DieSource σ] {ns : List Nat} {inner : String}

/-- A query that repeats another one, with the counts written in decimals and the first of them in front. -/
def counted : List Nat → String → String
  | [], inner => inner
  | n :: ns, inner => toString n ++ "x" ++ counted ns inner

theorem toList_counted_cons (n : Nat) (ns : List Nat) (inner : String) :
    (counted (n :: ns) inner).toList = Nat.toDigits 10 n ++ 'x' :: (counted ns inner).toList := by
  have hdigits : (toString n).toList = Nat.toDigits 10 n := String.toList_ofList
  rw [counted, String.toList_append, String.toList_append, hdigits, List.append_assoc]
  rfl

theorem repetitionCount_toDigits {n : Nat} (h : n < UInt64.size) : repetitionCount (Nat.toDigits 10 n) = n := by
  have hdigits : ∀ c ∈ Nat.toDigits 10 n, c.isDigit = true := fun _ => isDigit_of_mem_toDigits
  have htrim : Text.trim (Nat.toDigits 10 n) = Nat.toDigits 10 n :=
    Text.trim_of_not_blank fun c hc => Arithmetic.not_isBlank_of_isDigit (hdigits c hc)
  simp only [repetitionCount, htrim]
  split
  · next ds hds => exact absurd (hdigits '+' (hds ▸ List.mem_cons_self)) (by decide)
  · rw [Nat.ofDigitChars_ten_toDigits]
    exact if_pos ⟨Nat.toDigits_ne_nil, List.all_eq_true.mpr hdigits, h⟩

theorem splitRepetition?_counted {n : Nat} (h : n < UInt64.size) :
    splitRepetition? (counted (n :: ns) inner).toList = some (n, (counted ns inner).toList) := by
  have hplain : ∀ c ∈ Nat.toDigits 10 n, isRepetitionMark c = false := by
    intro c hc
    have hdigit : c.isDigit = true := isDigit_of_mem_toDigits hc
    simp only [isRepetitionMark, Bool.or_eq_false_iff, beq_eq_false_iff_ne]
    constructor <;> rintro rfl <;> cases hdigit
  rw [toList_counted_cons, splitRepetition?_append hplain rfl, repetitionCount_toDigits h]

theorem counts_counted (hinner : ∀ c ∈ inner.toList, isRepetitionMark c = false)
    (hns : ∀ n ∈ ns, n < UInt64.size) : counts (counted ns inner).toList = ns := by
  induction ns with
  | nil => exact counts_of_none (splitRepetition?_eq_none_iff.mpr hinner)
  | cons n ns ih =>
    obtain ⟨hn, hns⟩ := List.forall_mem_cons.mp hns
    rw [counts_of_some (splitRepetition?_counted hn), ih hns]

theorem lastSegment_counted (hinner : ∀ c ∈ inner.toList, isRepetitionMark c = false)
    (hns : ∀ n ∈ ns, n < UInt64.size) : lastSegment (counted ns inner).toList = inner.toList := by
  induction ns with
  | nil => exact lastSegment_of_none (splitRepetition?_eq_none_iff.mpr hinner)
  | cons n ns ih =>
    obtain ⟨hn, hns⟩ := List.forall_mem_cons.mp hns
    rw [lastSegment_of_some (splitRepetition?_counted hn), ih hns]

theorem countP_counted (hinner : ∀ c ∈ inner.toList, isRepetitionMark c = false)
    (hns : ∀ n ∈ ns, n < UInt64.size) : (counted ns inner).toList.countP isRepetitionMark = ns.length := by
  rw [← length_counts, counts_counted hinner hns]

/-- Repetitions inside each other come to a single one. Either both queries fail, and with the same failure,
or both are answered with the same leaves in the same order. Either way the tray is the same afterwards, with
its dice, its rolls and the texts that were evaluated. -/
theorem answer_counted_prod (hinner : ∀ c ∈ inner.toList, isRepetitionMark c = false)
    (hlength : ns.length ≤ 16) (hns : ∀ n ∈ ns, n < UInt64.size) (hprod : ns.prod < UInt64.size)
    (evaluator : Arithmetic.Evaluator) (mode : Scoring) (tray : Tray σ) :
    (answer evaluator (counted ns inner) mode tray).1.map Result.leaves =
        (answer evaluator (counted [ns.prod] inner) mode tray).1.map Result.leaves ∧
      (answer evaluator (counted ns inner) mode tray).2 =
        (answer evaluator (counted [ns.prod] inner) mode tray).2 := by
  have hsingle : ∀ n ∈ [ns.prod], n < UInt64.size := List.forall_mem_singleton.mpr hprod
  refine leaves_answer_congr tray ?_ ?_ ?_ ?_
  · rw [countP_counted hinner hns]
    exact hlength
  · rw [countP_counted hinner hsingle, List.length_singleton]
    decide
  · rw [lastSegment_counted hinner hns, lastSegment_counted hinner hsingle]
  · rw [counts_counted hinner hns, counts_counted hinner hsingle, List.prod_singleton]

/-- Two times three dice, once with a count that is one in between, and six dice. -/
theorem answer_two_one_three :
    counted [2, 1, 3] "1d4" = "2x1x3x1d4" ∧ counted [6] "1d4" = "6x1d4" ∧
      (answer (fun _ => .ok 0) "2x1x3x1d4" .sum (.ofDice (Script.ofList [3, 1, 4, 2]))).1.map Result.leaves =
          (answer (fun _ => .ok 0) "6x1d4" .sum (.ofDice (Script.ofList [3, 1, 4, 2]))).1.map Result.leaves ∧
        (answer (fun _ => .ok 0) "2x1x3x1d4" .sum (.ofDice (Script.ofList [3, 1, 4, 2]))).2 =
          (answer (fun _ => .ok 0) "6x1d4" .sum (.ofDice (Script.ofList [3, 1, 4, 2]))).2 := by
  have hnested : counted [2, 1, 3] "1d4" = "2x1x3x1d4" := by decide +kernel
  have hflat : counted [6] "1d4" = "6x1d4" := by decide +kernel
  have hinner : ∀ c ∈ "1d4".toList, isRepetitionMark c = false := splitRepetition?_eq_none_iff.mp rfl
  have hns : ∀ n ∈ [2, 1, 3], n < UInt64.size := by simp [UInt64.size]
  rw [← hnested, ← hflat]
  exact ⟨rfl, rfl, answer_counted_prod hinner (by decide) hns (by decide) (fun _ => .ok 0) .sum
    (.ofDice (Script.ofList [3, 1, 4, 2]))⟩

end Counted

section Excess

variable {levels : Nat} {cs : List Char} {r : Result Roll}

/-- A result in which no node has a total or entries. -/
def Vacant (r : Result Roll) : Prop := ∀ i, ∀ node ∈ r.nodesAt i, node.total = 0 ∧ node.entries = []

theorem Vacant.total (h : Vacant r) : r.total = 0 := (h 0 r List.mem_cons_self).1

theorem vacant_empty (input : String) : Vacant (.empty input) := by
  intro i node hnode
  cases i with
  | zero =>
    rw [List.mem_singleton.mp hnode]
    exact ⟨rfl, rfl⟩
  | succ i => cases hnode

theorem sumTotals_of_vacant {parts : List (Result Roll)} (h : ∀ part ∈ parts, Vacant part) :
    sumTotals parts = 0 := by
  have hzero : (0 : Float) + 0 = 0 := by decide
  unfold sumTotals
  induction parts with
  | nil => rfl
  | cons part parts ih =>
    obtain ⟨hpart, hparts⟩ := List.forall_mem_cons.mp h
    rw [List.foldl_cons, hpart.total, hzero, ih hparts]

theorem vacant_repeated {input : String} {parts : List (Result Roll)} (h : ∀ part ∈ parts, Vacant part) :
    Vacant (.repeated input (sumTotals parts) [] parts) := by
  intro i node hnode
  cases i with
  | zero =>
    rw [List.mem_singleton.mp hnode]
    exact ⟨sumTotals_of_vacant h, rfl⟩
  | succ i =>
    obtain ⟨part, hpart, hnode⟩ := List.mem_flatMap.mp hnode
    exact h part hpart i node hnode

theorem repeatAnswer_replicate {σ : Type} {answer : Tray σ → Except Failure (Result Roll) × Tray σ}
    (h : ∀ tray, answer tray = (.ok r, tray)) (times : Nat) (tray : Tray σ) :
    repeatAnswer answer times [] tray = (.ok (List.replicate times r), tray) := by
  have hanswers : Answers answer tray (List.replicate times r) tray := by
    induction times with
    | zero => exact .nil tray
    | succ times ih => exact .cons (h tray) ih
  exact repeatAnswer_eq_ok_iff.mpr ⟨List.length_replicate, hanswers⟩

/-- Where marks are left over, nothing is asked of the tray, and so neither the evaluator nor the mode matters. -/
theorem exists_vacant_of_lt_counts (h : levels < (counts cs).length) :
    ∃ r, Vacant r ∧ ∀ {σ : Type} [DieSource σ] (evaluator : Arithmetic.Evaluator) (mode : Scoring)
      (tray : Tray σ), answerWithin evaluator levels cs mode tray = (.ok r, tray) := by
  induction levels generalizing cs with
  | zero =>
    obtain ⟨⟨times, inner⟩, hcs⟩ := Option.ne_none_iff_exists'.mp
      (mt splitRepetition?_eq_none_iff_counts.mp (List.ne_nil_of_length_pos h))
    exact ⟨.empty (String.ofList cs), vacant_empty _, fun _ _ _ => answerWithin_zero_of_some hcs⟩
  | succ levels ih =>
    obtain ⟨⟨times, inner⟩, hcs⟩ := Option.ne_none_iff_exists'.mp
      (mt splitRepetition?_eq_none_iff_counts.mp (List.ne_nil_of_length_pos (Nat.zero_lt_of_lt h)))
    rw [counts_of_some hcs, List.length_cons] at h
    obtain ⟨r, hr, hanswer⟩ := ih (Nat.lt_of_succ_lt_succ h)
    have hparts : ∀ part ∈ List.replicate times r, Vacant part := fun part hpart =>
      List.eq_of_mem_replicate hpart ▸ hr
    refine ⟨.repeated (String.ofList cs) (sumTotals (.replicate times r)) [] (.replicate times r),
      vacant_repeated hparts, ?_⟩
    intro σ _ evaluator mode tray
    rw [answerWithin_succ_of_some hcs, repeatAnswer_replicate (hanswer evaluator mode)]

/-- A query with more marks than are read has the same result under every evaluator, in every mode and on every
tray, and leaves the tray as it is: no die is drawn, no pool is rolled and no text is evaluated. None of the
nodes of the result lies deeper than the marks that are read, and none has a total or entries. -/
theorem answer_of_too_many_marks {query : String} (h : 16 < query.toList.countP isRepetitionMark) :
    ∃ r : Result Roll, r.total = 0 ∧
      (∀ i, ∀ node ∈ r.nodesAt i, i ≤ 16 ∧ node.total = 0 ∧ node.entries = []) ∧
      ∀ {σ : Type} [DieSource σ] (evaluator : Arithmetic.Evaluator) (mode : Scoring) (tray : Tray σ),
        answer evaluator query mode tray = (.ok r, tray) := by
  rw [← length_counts] at h
  obtain ⟨r, hr, hanswer⟩ := exists_vacant_of_lt_counts h
  have hshaped : Shaped 16 query.toList r :=
    shaped_of_answerWithin (hanswer (fun _ => .ok 0) .sum (.ofDice (Script.ofList [])))
  exact ⟨r, hr.total, fun i node hnode => ⟨(hshaped.of_mem_nodesAt hnode).1, hr i node hnode⟩, hanswer⟩

/-- One mark more than is read. -/
theorem answer_seventeen_marks :
    ∃ r : Result Roll, r.total = 0 ∧
      (∀ i, ∀ node ∈ r.nodesAt i, i ≤ 16 ∧ node.total = 0 ∧ node.entries = []) ∧
      ∀ {σ : Type} [DieSource σ] (evaluator : Arithmetic.Evaluator) (mode : Scoring) (tray : Tray σ),
        answer evaluator "2x1X1x1x1x1x1x1x1x1x1x1x1x1x1x1x99999999999999999999x1d4" mode tray = (.ok r, tray) :=
  answer_of_too_many_marks (by decide)

end Excess

end Tabletop.Query

import Tabletop.Query.Repetition

/-!
A query as the segments between its repetition marks. All but the last are counts. What is answered, as
often as the product of the counts says, is the query behind the last mark, or behind as many marks as are
read.
-/

namespace Tabletop.Query

variable {cs inner : List Char} {times : Nat}

def segments (cs : List Char) : List (List Char) := cs.splitOnP isRepetitionMark

theorem segments_ne_nil (cs : List Char) : segments cs ≠ [] := List.splitOnP_ne_nil _ _

/-- The repetitions asked for, those of the first mark in front. -/
def counts (cs : List Char) : List Nat := (segments cs).dropLast.map repetitionCount

/-- What stands behind the last mark. -/
def lastSegment (cs : List Char) : List Char := (segments cs).getLast (segments_ne_nil cs)

/-- The query behind its first `i` marks, or behind the last mark if it has no more than `i`. -/
def behind : Nat → List Char → List Char
  | 0, cs => cs
  | i + 1, cs =>
    match splitRepetition? cs with
    | none => cs
    | some (_, inner) => behind i inner

theorem segments_of_none (h : splitRepetition? cs = none) : segments cs = [cs] :=
  List.splitOnP_eq_singleton (splitRepetition?_eq_none_iff.mp h)

theorem segments_of_some (h : splitRepetition? cs = some (times, inner)) :
    ∃ count mark, cs = count ++ mark :: inner ∧ count.countP isRepetitionMark = 0 ∧
      isRepetitionMark mark = true ∧ times = repetitionCount count ∧
        segments cs = count :: segments inner := by
  unfold splitRepetition? at h
  split at h
  · cases h
  · next mark rest hdrop =>
    cases h
    have hmark : isRepetitionMark mark = true := by
      have hhead := List.head?_dropWhile_not (!isRepetitionMark ·) cs
      simpa [hdrop] using hhead
    have hcs := List.takeWhile_append_dropWhile (p := (!isRepetitionMark ·)) (l := cs)
    rw [hdrop] at hcs
    have hcount : ∀ c ∈ cs.takeWhile (!isRepetitionMark ·), isRepetitionMark c = false := by
      intro c hc
      simpa using List.all_eq_true.mp List.all_takeWhile c hc
    refine ⟨_, mark, hcs.symm, List.countP_eq_zero.mpr (by simpa using hcount), hmark, rfl, ?_⟩
    rw [segments, ← hcs, List.splitOnP_append_cons_of_forall_mem hcount mark hmark, hcs]
    rfl

/-- From a query without marks to all, mark by mark from the right. -/
theorem markInduction {P : List Char → Prop} (plain : ∀ cs, splitRepetition? cs = none → P cs)
    (marked : ∀ cs times inner, splitRepetition? cs = some (times, inner) → P inner → P cs)
    (cs : List Char) : P cs := by
  induction hn : cs.length using Nat.strongRecOn generalizing cs with
  | ind n ih =>
    cases h : splitRepetition? cs with
    | none => exact plain cs h
    | some split =>
      obtain ⟨times, inner⟩ := split
      obtain ⟨count, mark, hcs, -⟩ := segments_of_some h
      have hshorter : inner.length < n := by
        rw [← hn, hcs, List.length_append, List.length_cons]
        omega
      exact marked cs times inner h (ih inner.length hshorter inner rfl)

theorem counts_of_none (h : splitRepetition? cs = none) : counts cs = [] := by
  rw [counts, segments_of_none h]
  rfl

theorem counts_of_some (h : splitRepetition? cs = some (times, inner)) :
    counts cs = times :: counts inner := by
  obtain ⟨count, mark, -, -, -, rfl, hsegments⟩ := segments_of_some h
  rw [counts, hsegments, List.dropLast_cons_of_ne_nil (segments_ne_nil inner), List.map_cons, counts]

/-- There is one count for each mark. -/
theorem length_counts (cs : List Char) : (counts cs).length = cs.countP isRepetitionMark := by
  induction cs using markInduction with
  | plain cs h =>
    rw [counts_of_none h, List.length_nil, eq_comm, List.countP_eq_zero]
    simpa using splitRepetition?_eq_none_iff.mp h
  | marked cs times inner h ih =>
    obtain ⟨count, mark, hcs, hnone, hmark, -⟩ := segments_of_some h
    rw [counts_of_some h, List.length_cons, ih, hcs, List.countP_append, hnone,
      List.countP_cons_of_pos hmark, Nat.zero_add]

theorem lastSegment_of_none (h : splitRepetition? cs = none) : lastSegment cs = cs := by
  simp only [lastSegment, segments_of_none h, List.getLast_singleton]

theorem lastSegment_of_some (h : splitRepetition? cs = some (times, inner)) :
    lastSegment cs = lastSegment inner := by
  obtain ⟨count, mark, -, -, -, -, hsegments⟩ := segments_of_some h
  simp only [lastSegment, hsegments, List.getLast_cons (segments_ne_nil inner)]

theorem lastSegment_isSuffix (cs : List Char) : lastSegment cs <:+ cs := by
  induction cs using markInduction with
  | plain cs hcs => exact (lastSegment_of_none hcs).symm ▸ List.suffix_rfl
  | marked cs times inner hcs ih =>
    obtain ⟨count, mark, rfl, -⟩ := segments_of_some hcs
    rw [lastSegment_of_some hcs]
    exact ih.trans ((List.suffix_cons mark inner).trans (List.suffix_append count _))

theorem behind_of_some (h : splitRepetition? cs = some (times, inner)) (i : Nat) :
    behind (i + 1) cs = behind i inner := by
  rw [behind, h]

theorem behind_of_none (h : splitRepetition? cs = none) (i : Nat) : behind i cs = cs := by
  cases i with
  | zero => rfl
  | succ i => rw [behind, h]

theorem counts_behind (i : Nat) : counts (behind i cs) = (counts cs).drop i := by
  induction cs using markInduction generalizing i with
  | plain cs h => rw [behind_of_none h, counts_of_none h, List.drop_nil]
  | marked cs times inner h ih =>
    cases i with
    | zero => rfl
    | succ i => rw [behind_of_some h, ih, counts_of_some h, List.drop_succ_cons]

/-- Behind all marks there is the last segment. -/
theorem behind_eq_lastSegment {i : Nat} (h : (counts cs).length ≤ i) : behind i cs = lastSegment cs := by
  induction cs using markInduction generalizing i with
  | plain cs hcs =>
    rw [behind_of_none hcs, lastSegment_of_none hcs]
  | marked cs times inner hcs ih =>
    rw [counts_of_some hcs, List.length_cons] at h
    cases i with
    | zero => omega
    | succ i => rw [behind_of_some hcs, ih (by omega), lastSegment_of_some hcs]

theorem splitRepetition?_eq_none_iff_counts : splitRepetition? cs = none ↔ counts cs = [] := by
  cases h : splitRepetition? cs with
  | none => simp [counts_of_none h]
  | some split => simp [counts_of_some h]

/-- Marks remain only behind too few of them. -/
theorem splitRepetition?_behind_eq_none_iff {i : Nat} :
    splitRepetition? (behind i cs) = none ↔ (counts cs).length ≤ i := by
  rw [splitRepetition?_eq_none_iff_counts, counts_behind, List.drop_eq_nil_iff]

theorem splitRepetition?_lastSegment (cs : List Char) : splitRepetition? (lastSegment cs) = none := by
  rw [← behind_eq_lastSegment (Nat.le_refl (counts cs).length)]
  exact splitRepetition?_behind_eq_none_iff.mpr (Nat.le_refl _)

theorem isWorthReading_of_some (h : splitRepetition? cs = some (times, inner)) :
    isWorthReading cs = true := by
  obtain ⟨count, mark, rfl, -, hmark, -⟩ := segments_of_some h
  exact List.any_eq_true.mpr ⟨mark, by simp, by simp [hmark]⟩

end Tabletop.Query

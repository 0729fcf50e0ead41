import Tabletop.Proofs.Answering

/-!
Dice of one side. Such a die always shows its only face, which adds no die, so a pool of them is rolled with the
same faces on every tray. Main statement: what a query is answered does not depend on the tray, if the pools that
are rolled for it have no more than one side.
-/

namespace Tabletop

/-- A die shows one of its faces. -/
class LawfulDieSource (σ : Type) [DieSource σ] : Prop where
  one_le_draw (sides : Nat) (s : σ) : 1 ≤ (draw sides s).1
  draw_le {sides : Nat} (s : σ) (h : 1 ≤ sides) : (draw sides s).1 ≤ sides

instance : LawfulDieSource Script where
  one_le_draw sides s := one_le_clampFace sides s.next.1
  draw_le s h := clampFace_le s.next.1 h

theorem randNat_mem (g : StdGen) {low high : Nat} (h : low ≤ high) :
    low ≤ (randNat g low high).1 ∧ (randNat g low high).1 ≤ high := by
  have hdraw : ∃ v, (randNat g low high).1 = low + v % (high - low + 1) := by
    simp only [randNat, gt_iff_lt, Nat.not_lt.mpr h, if_false]
    exact ⟨_, rfl⟩
  obtain ⟨v, hv⟩ := hdraw
  have hlt : v % (high - low + 1) < high - low + 1 := Nat.mod_lt v (Nat.zero_lt_succ _)
  omega

instance : LawfulDieSource RandomDice where
  one_le_draw sides s := (randNat_mem s.generator (Nat.le_max_right sides 1)).1
  draw_le {sides} s h := by
    have hle := (randNat_mem s.generator (Nat.le_max_right sides 1)).2
    calc (randNat s.generator 1 (max sides 1)).1
      _ ≤ max sides 1 := hle
      _ = sides := Nat.max_eq_left h

variable {σ : Type} [DieSource σ] [LawfulDieSource σ] {mode : Scoring}

theorem draw_one (s : σ) : (draw 1 s).1 = 1 :=
  Nat.le_antisymm (LawfulDieSource.draw_le s (Nat.le_refl 1)) (LawfulDieSource.one_le_draw 1 s)

theorem drawQueue_one (mode : Scoring) {budget queued : Nat} (h : queued ≤ budget) (s : σ) :
    ∃ s', drawQueue 1 mode budget queued s = some (List.replicate queued 1, s') := by
  induction queued generalizing budget s with
  | zero => exact ⟨s, drawQueue_zero ..⟩
  | succ queued ih =>
    obtain ⟨budget, rfl⟩ := Nat.exists_eq_add_one_of_ne_zero (Nat.ne_zero_of_lt h)
    obtain ⟨s', hqueue⟩ := ih (Nat.le_of_succ_le_succ h) (draw 1 s).2
    have hexplodes : mode.explodes 1 = false := by
      rw [← Bool.not_eq_true, Scoring.explodes_iff]
      rintro ⟨-, ⟨⟩⟩
    refine ⟨s', ?_⟩
    rw [drawQueue_succ, draw_one, hexplodes, if_neg Bool.false_ne_true, Nat.add_zero, hqueue]
    rfl

/-- The roll of a pool on which every die shows a one. -/
def Pool.ones (mode : Scoring) (p : Pool) : Roll := ⟨p.clamped, mode, List.replicate p.clamped.count 1⟩

theorem Pool.roll?_of_sides_le_one (mode : Scoring) {p : Pool} (h : p.sides ≤ 1) (s : σ) :
    ∃ s', p.roll? mode s = some (p.ones mode, s') := by
  have hsides : p.clamped.sides = 1 := by
    simp only [clamped, maxSides]
    omega
  obtain ⟨s', hqueue⟩ := drawQueue_one mode (Nat.le_add_right p.clamped.count (patience s)) s
  refine ⟨s', ?_⟩
  simp only [roll?, hsides, hqueue, Option.map_some, ones]

theorem Tray.rollAll_of_sides_le_one (mode : Scoring) {ps : List Pool} (h : ∀ p ∈ ps, p.sides ≤ 1)
    (tray : Tray σ) : ∃ tray', tray.rollAll mode ps = (.ok (ps.map (Pool.ones mode)), tray') := by
  induction ps generalizing tray with
  | nil => exact ⟨tray, rfl⟩
  | cons p ps ih =>
    obtain ⟨hp, hps⟩ := List.forall_mem_cons.mp h
    obtain ⟨s', hroll⟩ := Pool.roll?_of_sides_le_one mode hp tray.dice
    obtain ⟨tray', hrolls⟩ := ih hps { tray with dice := s', rolled := tray.rolled.push (p.ones mode) }
    refine ⟨tray', ?_⟩
    simp only [rollAll, roll, hroll, hrolls, List.map_cons]

namespace Query

variable {evaluator : Arithmetic.Evaluator} {cs : List Char}

/-- The same on every tray, up to the tray that is left. -/
def Fixed {α : Type} (answer : Tray σ → α × Tray σ) : Prop := ∀ tray tray', (answer tray).1 = (answer tray').1

theorem fixed_answerTerms (h : ∀ p ∈ leafPools cs, p.sides ≤ 1) :
    Fixed (answerTerms evaluator cs mode : Tray σ → _) := by
  intro tray tray'
  obtain ⟨after, hrolls⟩ := Tray.rollAll_of_sides_le_one (rolledMode cs mode) h tray
  obtain ⟨after', hrolls'⟩ := Tray.rollAll_of_sides_le_one (rolledMode cs mode) h tray'
  rw [answerTerms_of_rollAll hrolls, answerTerms_of_rollAll hrolls']

omit [DieSource σ] [LawfulDieSource σ] in
theorem Fixed.repeatAnswer {answer : Tray σ → Except Failure (Result Roll) × Tray σ} (h : Fixed answer)
    (times : Nat) (done : List (Result Roll)) : Fixed (repeatAnswer answer times done) := by
  induction times generalizing done with
  | zero =>
    intro tray tray'
    rfl
  | succ times ih =>
    intro tray tray'
    have hfirst := h tray tray'
    simp only [Query.repeatAnswer]
    cases hanswer : answer tray with
    | mk outcome after =>
      cases hanswer' : answer tray' with
      | mk outcome' after' =>
        rw [hanswer, hanswer'] at hfirst
        cases hfirst
        cases outcome with
        | error e => rfl
        | ok r => exact ih (r :: done) after after'

/-- The pools that are rolled for a query: those behind its last mark, if this is answered at all. -/
def rolledPools (levels : Nat) (cs : List Char) : List Pool :=
  if (counts cs).length ≤ levels ∧ 0 ∉ counts cs then leafPools (lastSegment cs) else []

theorem fixed_answerWithin {levels : Nat} (h : ∀ p ∈ rolledPools levels cs, p.sides ≤ 1) :
    Fixed (answerWithin evaluator levels cs mode : Tray σ → _) := by
  induction cs using markInduction generalizing levels with
  | plain cs hcs =>
    have hpools : rolledPools levels cs = leafPools cs := by
      simp [rolledPools, counts_of_none hcs, lastSegment_of_none hcs]
    rw [hpools] at h
    intro tray tray'
    rw [answerWithin_of_none hcs, answerWithin_of_none hcs]
    split
    · exact fixed_answerTerms h tray tray'
    · rfl
  | marked cs times inner hcs ih =>
    intro tray tray'
    cases levels with
    | zero => rw [answerWithin_zero_of_some hcs, answerWithin_zero_of_some hcs]
    | succ levels =>
      have hrepeat : Fixed (repeatAnswer (answerWithin evaluator levels inner mode : Tray σ → _) times []) := by
        cases times with
        | zero =>
          intro tray tray'
          rfl
        | succ times =>
          have hpools : rolledPools (levels + 1) cs = rolledPools levels inner := by
            simp [rolledPools, counts_of_some hcs, lastSegment_of_some hcs]
          rw [hpools] at h
          exact (ih h).repeatAnswer (times + 1) []
      have hparts := hrepeat tray tray'
      rw [answerWithin_succ_of_some hcs, answerWithin_succ_of_some hcs]
      cases hall : repeatAnswer (answerWithin evaluator levels inner mode) times [] tray with
      | mk outcome after =>
        cases hall' : repeatAnswer (answerWithin evaluator levels inner mode) times [] tray' with
        | mk outcome' after' =>
          rw [hall, hall'] at hparts
          cases hparts
          cases outcome <;> rfl

/-- What a query is answered does not depend on the tray, if its dice have no more than one side. -/
theorem fixed_answer {query : String} (h : ∀ p ∈ rolledPools maxRepetitions query.toList, p.sides ≤ 1) :
    Fixed (answer evaluator query mode : Tray σ → _) := fixed_answerWithin h

end Query

end Tabletop

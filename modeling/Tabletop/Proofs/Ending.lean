import Tabletop.Proofs.Exploding

/-!
Which rolls of a script come to an end. Behind its last face a script shows that face for ever, so from then on
either every draw adds a die or none does. Main statement: a roll with tens that add dice ends if the face that is
repeated is no ten on its die, and otherwise just if the script itself makes up for all the tens that it shows; all
other rolls draw the dice of their pool and no more. Every roll of a script that ends at all ends within the
patience of the script.
-/

namespace Tabletop

section Queues

variable {σ : Type} [DieSource σ] {mode : Scoring} {sides queued n : Nat} {s s' : σ} {faces : List Nat}

/-- A queue from which no more than `n` draws are due after `n` draws was settled in the meantime. -/
theorem exists_settled_of_due_le (h : due mode sides queued s n ≤ n) :
    ∃ m ≤ n, m ∈ settled mode sides queued s := by
  induction n generalizing queued s with
  | zero => exact ⟨0, Nat.le_refl 0, (Nat.le_zero.mp h).symm⟩
  | succ n ih =>
    cases queued with
    | zero => exact ⟨0, Nat.zero_le _, rfl⟩
    | succ queued =>
      rw [due_succ] at h
      obtain ⟨m, hm, hsettled⟩ := ih (Nat.le_of_succ_le_succ h)
      exact ⟨m + 1, Nat.succ_le_succ hm, succ_mem_settled.mpr hsettled⟩

theorem Drawn.length_le (h : Drawn sides mode queued s faces s') (hn : n ∈ settled mode sides queued s) :
    faces.length ≤ n :=
  (drawn_iff_isLeast.mp h).1.2 hn

/-- Where no face adds a die, a queue is as long as it was in the beginning. -/
theorem settled_of_not_explodes (h : ∀ n, ∀ face ∈ facesAhead sides s n, mode.explodes face = false) :
    settled mode sides queued s = {queued} := by
  have hadded : ∀ n, mode.added (facesAhead sides s n) = 0 := by
    intro n
    exact List.countP_eq_zero.mpr fun face hface => by simp [h n face hface]
  ext n
  simp [settled, due, hadded]

end Queues

namespace Script

variable {mode : Scoring} {sides queued n : Nat} {s : Script}

/-- The face that a script shows for ever once its faces are used up, on a die with that many sides. -/
def lastFace (sides : Nat) (s : Script) : Nat := clampFace sides (s.faces.getLastD s.repeated)

/-- The first `n` faces of a script that are still to come, on dice with that many sides. -/
def written (sides : Nat) (s : Script) (n : Nat) : List Nat := (s.faces.take n).map (clampFace sides)

theorem facesAhead_eq :
    facesAhead sides s n = s.written sides n ++ List.replicate (n - s.remaining) (s.lastFace sides) := by
  induction n generalizing s with
  | zero => simp [facesAhead, written]
  | succ n ih =>
    obtain ⟨faces, r⟩ := s
    rw [facesAhead, draw_eq, ih]
    cases faces with
    | nil => simp [written, lastFace, remaining, List.replicate_succ]
    | cons f fs =>
      have hlast : lastFace sides ⟨fs, f⟩ = lastFace sides ⟨f :: fs, r⟩ := by
        rw [lastFace, lastFace, List.getLastD_cons]
      simp [written, remaining, hlast]

theorem mem_facesAhead {face : Nat} (h : face ∈ facesAhead sides s n) : ∃ f, face = clampFace sides f := by
  rw [facesAhead_eq] at h
  rcases List.mem_append.mp h with h | h
  · obtain ⟨f, -, rfl⟩ := List.mem_map.mp h
    exact ⟨f, rfl⟩
  · exact ⟨_, List.eq_of_mem_replicate h⟩

theorem due_eq :
    due mode sides queued s n = queued + (mode.added (s.written sides n) +
      if mode.explodes (s.lastFace sides) then n - s.remaining else 0) := by
  rw [due, facesAhead_eq]
  simp only [Scoring.added, List.countP_append, List.countP_replicate]

theorem added_written_le : mode.added (s.written sides n) ≤ s.remaining := by
  have hlength : (s.written sides n).length ≤ s.remaining := by simp [written, remaining]
  exact List.countP_le_length.trans hlength

theorem written_of_remaining_le (h : s.remaining ≤ n) : s.written sides n = s.written sides s.remaining := by
  rw [written, written, List.take_of_length_le h, remaining, List.take_length]

/-- If the repeated face adds no die, each draw behind the script shortens the queue. -/
theorem exists_settled_of_lastFace (h : mode.explodes (s.lastFace sides) = false) :
    ∃ m ≤ queued + s.remaining, m ∈ settled mode sides queued s := by
  apply exists_settled_of_due_le
  rw [due_eq, h]
  exact Nat.add_le_add_left added_written_le queued

/-- If it adds one, the queue does not change behind the script. -/
theorem mem_settled_iff_of_explodes (h : mode.explodes (s.lastFace sides) = true) :
    n ∈ settled mode sides queued s ↔
      min n s.remaining = queued + mode.added (s.written sides (min n s.remaining)) := by
  change n = due mode sides queued s n ↔ _
  rw [due_eq, if_pos h]
  rcases Nat.le_total n s.remaining with hle | hle
  · rw [Nat.min_eq_left hle, Nat.sub_eq_zero_of_le hle, Nat.add_zero]
  · rw [Nat.min_eq_right hle, written_of_remaining_le hle]
    omega

theorem exists_settled_iff :
    (∃ n, n ∈ settled mode sides queued s) ↔
      mode.explodes (s.lastFace sides) = false ∨
        ∃ n ≤ s.remaining, n = queued + mode.added (s.written sides n) := by
  cases h : mode.explodes (s.lastFace sides) with
  | false =>
    obtain ⟨m, -, hm⟩ : ∃ m ≤ queued + s.remaining, m ∈ settled mode sides queued s := exists_settled_of_lastFace h
    simp only [true_or, iff_true]
    exact ⟨m, hm⟩
  | true =>
    simp only [Bool.true_eq_false, false_or]
    constructor
    · intro ⟨n, hn⟩
      exact ⟨min n s.remaining, Nat.min_le_right .., (mem_settled_iff_of_explodes h).mp hn⟩
    · intro ⟨n, hle, hn⟩
      refine ⟨n, (mem_settled_iff_of_explodes h).mpr ?_⟩
      rwa [Nat.min_eq_left hle]

/-- A queue that ends at all ends within the patience of the script. -/
theorem length_le_of_drawn {faces : List Nat} {s' : Script} (h : Drawn sides mode queued s faces s') :
    faces.length ≤ queued + s.remaining := by
  cases hlast : mode.explodes (s.lastFace sides) with
  | false =>
    obtain ⟨m, hle, hm⟩ : ∃ m ≤ queued + s.remaining, m ∈ settled mode sides queued s :=
      exists_settled_of_lastFace hlast
    exact (h.length_le hm).trans hle
  | true =>
    have hmin := (mem_settled_iff_of_explodes hlast).mp (drawn_iff_isLeast.mp h).1.1
    have hsettled : min faces.length s.remaining ∈ settled mode sides queued s := by
      rw [mem_settled_iff_of_explodes hlast, Nat.min_eq_left (Nat.min_le_right ..)]
      exact hmin
    have := h.length_le hsettled
    omega

end Script

namespace Pool

variable {p : Pool} {mode : Scoring} {s s' : Script} {r : Roll}

theorem roll?_script_eq_some_iff : p.roll? mode s = some (r, s') ↔ p.RollsTo mode s r s' := by
  rw [roll?_eq_some_iff]
  constructor
  · intro h
    exact h.1
  · intro h
    exact ⟨h, Script.length_le_of_drawn h.drawn⟩

theorem exists_rollsTo_iff :
    (∃ r s', p.RollsTo mode s r s') ↔
      ∃ n, n ∈ settled mode p.clamped.sides p.clamped.count s := by
  rw [show (∃ n, n ∈ settled mode p.clamped.sides p.clamped.count s) ↔ _ from exists_drawn_iff.symm]
  constructor
  · intro ⟨r, s', h⟩
    exact ⟨r.faces, s', h.drawn⟩
  · intro ⟨faces, s', h⟩
    exact ⟨⟨p.clamped, mode, faces⟩, s', rfl, rfl, h⟩

theorem not_explodes_of_sides_lt (hsides : mode ≠ .whiteWolf ∨ p.clamped.sides < 10) (f : Nat) :
    mode.explodes (clampFace p.clamped.sides f) = false := by
  rw [Bool.eq_false_iff, ne_eq, Scoring.explodes_iff]
  intro ⟨hmode, hface⟩
  have hle := clampFace_le f p.one_le_clamped_sides
  have hlt := hsides.resolve_left fun h => h hmode
  rw [hface] at hle
  exact absurd hle (Nat.not_le.mpr hlt)

/-- When the rolls of a script end, at whatever place the script stands. Rolls in which no ten can add a die draw
as many dice as their pool has. A roll with tens that add dice ends just if it has no dice, if the face that the
script repeats is no ten on such a die, or if the faces that are left settle the queue; unless the repeated face is
a ten, its draws are no more than the dice and the faces that are left. Rolls are refused only if they do not
end. -/
theorem roll_ends (p : Pool) (mode : Scoring) (s : Script) :
    (∀ r s', p.roll? mode s = some (r, s') ↔ p.RollsTo mode s r s') ∧
    (mode ≠ .whiteWolf ∨ p.clamped.sides < 10 →
      ∃ r s', p.roll? mode s = some (r, s') ∧ r.faces.length = min p.count 100) ∧
    (mode = .whiteWolf →
      ((∃ r s', p.RollsTo mode s r s') ↔
        min p.count 100 = 0 ∨ clampFace p.clamped.sides (s.faces.getLastD s.repeated) ≠ 10 ∨
          ∃ n ≤ s.remaining, n = min p.count 100 +
            ((s.faces.take n).map (clampFace p.clamped.sides)).count 10)) ∧
    (clampFace p.clamped.sides (s.faces.getLastD s.repeated) ≠ 10 →
      (∃ r s', p.roll? mode s = some (r, s')) ∧
        ∀ r s', p.roll? mode s = some (r, s') → r.faces.length ≤ min p.count 100 + s.remaining) := by
  refine ⟨fun r s' => roll?_script_eq_some_iff, ?_, ?_, ?_⟩
  · intro h
    have hsettled : settled mode p.clamped.sides p.clamped.count s = {p.clamped.count} := by
      apply settled_of_not_explodes
      intro n face hface
      obtain ⟨f, rfl⟩ := Script.mem_facesAhead hface
      exact not_explodes_of_sides_lt h f
    have hends : ∃ n, n ∈ settled mode p.clamped.sides p.clamped.count s := by
      rw [hsettled]
      exact ⟨_, rfl⟩
    obtain ⟨r, s', hr⟩ := exists_rollsTo_iff.mpr hends
    refine ⟨r, s', roll?_script_eq_some_iff.mpr hr, ?_⟩
    have hleast := (drawn_iff_isLeast.mp hr.drawn).1.1
    rw [hsettled] at hleast
    exact hleast
  · rintro rfl
    rw [exists_rollsTo_iff, Script.exists_settled_iff]
    simp only [Scoring.added_eq, if_true]
    have hlast : Scoring.whiteWolf.explodes (s.lastFace p.clamped.sides) = false ↔
        clampFace p.clamped.sides (s.faces.getLastD s.repeated) ≠ 10 := by
      rw [Bool.eq_false_iff, ne_eq, Scoring.explodes_iff]
      exact not_congr (and_iff_right rfl)
    rw [hlast]
    constructor
    · exact .inr
    · intro h
      rcases h with hcount | h
      · exact .inr ⟨0, Nat.zero_le _, by simp [Script.written, clamped, maxCount, hcount]⟩
      · exact h
  · intro hlast
    have hexplodes : mode.explodes (s.lastFace p.clamped.sides) = false := by
      rw [Bool.eq_false_iff, ne_eq, Scoring.explodes_iff]
      exact fun h => hlast h.2
    obtain ⟨r, s', hr⟩ := exists_rollsTo_iff.mpr (Script.exists_settled_iff.mpr (.inl hexplodes))
    refine ⟨⟨r, s', roll?_script_eq_some_iff.mpr hr⟩, ?_⟩
    intro r s' h
    exact (roll?_eq_some_iff.mp h).2

/-- A die that always shows a ten never comes to an end, but one that shows a three before does. -/
theorem roll_ends_three_before_tens :
    (¬∃ r s', RollsTo ⟨1, 10⟩ .whiteWolf (Script.always 10) r s') ∧
      ∃ r s', RollsTo ⟨1, 10⟩ .whiteWolf (Script.ofList [3, 10]) r s' := by
  obtain ⟨-, -, htens, -⟩ := roll_ends ⟨1, 10⟩ .whiteWolf (Script.always 10)
  obtain ⟨-, -, hthree, -⟩ := roll_ends ⟨1, 10⟩ .whiteWolf (Script.ofList [3, 10])
  rw [htens rfl, hthree rfl]
  constructor
  · rintro (h | h | ⟨n, hle, hn⟩)
    · cases h
    · exact h rfl
    · match n, hle, hn with
      | 0, _, hn => cases hn
      | 1, _, hn => cases hn
  · exact .inr (.inr ⟨1, by decide, by decide⟩)

end Pool

end Tabletop

import Tabletop.Proofs.Rolling
import Mathlib.Algebra.Ring.Int.Defs
import Mathlib.Data.Nat.Find
import Mathlib.Order.Bounds.Basic

/-!
How long a roll is. The queue of a roll may grow while it is drawn, so the number of draws is not fixed beforehand:
it is the least number that is equal to the dice of the pool and the tens among that many draws. `Drawn` is the
queue without a limit on its draws, and `drawQueue` draws the queues that end within its budget. Main statement: a
roll shows the next faces of its source up to that number, all on dice with the sides of the pool, and its total is
the sum of their scores. Whether there is such a number depends on the source and is left open here.
-/

namespace Tabletop

variable {σ : Type} [DieSource σ] {mode : Scoring} {sides queued budget n : Nat} {s s' : σ} {faces : List Nat}

/-- The next faces of a source on dice with that many sides. -/
def facesAhead (sides : Nat) (s : σ) : Nat → List Nat
  | 0 => []
  | n + 1 => (draw sides s).1 :: facesAhead sides (draw sides s).2 n

/-- The source when these faces were drawn. -/
def sourceAfter (sides : Nat) (s : σ) : Nat → σ
  | 0 => s
  | n + 1 => sourceAfter sides (draw sides s).2 n

@[simp] theorem length_facesAhead : (facesAhead sides s n).length = n := by
  induction n generalizing s with
  | zero => rfl
  | succ n ih => rw [facesAhead, List.length_cons, ih]

/-- The number of dice that faces add to their pool. -/
def Scoring.added (mode : Scoring) (faces : List Nat) : Nat := faces.countP mode.explodes

theorem Scoring.added_cons (mode : Scoring) (face : Nat) (faces : List Nat) :
    mode.added (face :: faces) = mode.added faces + if mode.explodes face then 1 else 0 :=
  List.countP_cons

theorem Scoring.added_eq (mode : Scoring) (faces : List Nat) :
    mode.added faces = if mode = .whiteWolf then faces.count explodingFace else 0 := by
  unfold added
  by_cases hmode : mode = .whiteWolf
  · rw [if_pos hmode, List.count]
    exact List.countP_congr fun face _ => by simp [hmode]
  · rw [if_neg hmode]
    exact List.countP_eq_zero.mpr fun face _ => by simp [hmode]

section Queues

/-- `Drawn sides mode queued s faces s'`: drawing for `queued` dice, and for those that they add, shows `faces` and
then comes to an end. -/
inductive Drawn (sides : Nat) (mode : Scoring) : Nat → σ → List Nat → σ → Prop
  | empty (s : σ) : Drawn sides mode 0 s [] s
  | die {queued : Nat} {s s' : σ} {later : List Nat} :
      Drawn sides mode (queued + if mode.explodes (draw sides s).1 then 1 else 0) (draw sides s).2 later s' →
        Drawn sides mode (queued + 1) s ((draw sides s).1 :: later) s'

theorem length_le_of_drawQueue (h : drawQueue sides mode budget queued s = some (faces, s')) :
    faces.length ≤ budget := by
  induction budget generalizing queued s faces with
  | zero =>
    cases queued with
    | zero =>
      cases h
      exact Nat.le_refl 0
    | succ queued => cases h
  | succ budget ih =>
    cases queued with
    | zero =>
      cases h
      exact Nat.zero_le _
    | succ queued =>
      rw [drawQueue_succ, Option.map_eq_some_iff] at h
      obtain ⟨⟨later, s₁⟩, hlater, hfaces⟩ := h
      cases hfaces
      exact Nat.succ_le_succ (ih hlater)

/-- A budget makes no difference to a queue that ends within it. -/
theorem drawQueue_eq_some_iff :
    drawQueue sides mode budget queued s = some (faces, s') ↔
      Drawn sides mode queued s faces s' ∧ faces.length ≤ budget := by
  constructor
  · intro h
    exact ⟨drawQueue_induction .empty (fun _ _ _ _ => .die) h, length_le_of_drawQueue h⟩
  · intro ⟨h, hbudget⟩
    induction h generalizing budget with
    | empty s => exact drawQueue_zero ..
    | die _ ih =>
      cases budget with
      | zero => exact absurd hbudget (Nat.not_succ_le_zero _)
      | succ budget =>
        rw [drawQueue_succ, ih (Nat.le_of_succ_le_succ hbudget)]
        rfl

/-- How many draws a queue has asked for when `n` dice were drawn. -/
def due (mode : Scoring) (sides queued : Nat) (s : σ) (n : Nat) : Nat :=
  queued + mode.added (facesAhead sides s n)

@[simp] theorem due_zero : due mode sides queued s 0 = queued := rfl

/-- A draw takes one die from the queue, and its face may put one back. -/
theorem due_succ :
    due mode sides (queued + 1) s (n + 1) =
      due mode sides (queued + if mode.explodes (draw sides s).1 then 1 else 0) (draw sides s).2 n + 1 := by
  rw [due, due, facesAhead, Scoring.added_cons]
  omega

/-- The numbers of draws after which nothing is due. -/
def settled (mode : Scoring) (sides queued : Nat) (s : σ) : Set Nat :=
  {n | n = due mode sides queued s n}

theorem succ_mem_settled :
    n + 1 ∈ settled mode sides (queued + 1) s ↔
      n ∈ settled mode sides (queued + if mode.explodes (draw sides s).1 then 1 else 0) (draw sides s).2 := by
  change n + 1 = due mode sides (queued + 1) s (n + 1) ↔ _
  rw [due_succ]
  exact Nat.succ_inj

theorem isLeast_settled_zero : IsLeast (settled mode sides queued s) 0 ↔ queued = 0 := by
  constructor
  · intro h
    exact h.1.symm
  · rintro rfl
    exact ⟨rfl, fun _ _ => Nat.zero_le _⟩

/-- One draw brings the end one draw nearer. -/
theorem isLeast_settled_succ :
    IsLeast (settled mode sides (queued + 1) s) (n + 1) ↔
      IsLeast (settled mode sides (queued + if mode.explodes (draw sides s).1 then 1 else 0)
        (draw sides s).2) n := by
  constructor
  · intro ⟨hmem, hleast⟩
    refine ⟨succ_mem_settled.mp hmem, ?_⟩
    intro k hk
    exact Nat.le_of_succ_le_succ (hleast (succ_mem_settled.mpr hk))
  · intro ⟨hmem, hleast⟩
    refine ⟨succ_mem_settled.mpr hmem, ?_⟩
    intro k hk
    cases k with
    | zero => exact absurd hk.symm (Nat.succ_ne_zero queued)
    | succ k => exact Nat.succ_le_succ (hleast (succ_mem_settled.mp hk))

/-- A queue is drawn up to the first time when nothing is due. -/
theorem drawn_iff_isLeast :
    Drawn sides mode queued s faces s' ↔
      IsLeast (settled mode sides queued s) faces.length ∧
        faces = facesAhead sides s faces.length ∧ s' = sourceAfter sides s faces.length := by
  constructor
  · intro h
    induction h with
    | empty s => exact ⟨isLeast_settled_zero.mpr rfl, rfl, rfl⟩
    | die _ ih =>
      obtain ⟨hleast, hfaces, rfl⟩ := ih
      exact ⟨isLeast_settled_succ.mpr hleast, congrArg _ hfaces, rfl⟩
  · rintro ⟨hleast, hfaces, rfl⟩
    induction faces generalizing queued s with
    | nil =>
      cases isLeast_settled_zero.mp hleast
      exact .empty s
    | cons face later ih =>
      cases queued with
      | zero => exact absurd (hleast.2 (show 0 ∈ settled mode sides 0 s from rfl)) (Nat.not_succ_le_zero _)
      | succ queued =>
        obtain ⟨rfl, hlater⟩ := List.cons.inj hfaces
        exact .die (ih (isLeast_settled_succ.mp hleast) hlater)

/-- A queue comes to an end if at some time nothing is due. -/
theorem exists_drawn_iff :
    (∃ faces s', Drawn sides mode queued s faces s') ↔ ∃ n, n = due mode sides queued s n := by
  constructor
  · intro ⟨faces, s', h⟩
    exact ⟨_, (drawn_iff_isLeast.mp h).1.1⟩
  · intro h
    have hleast : IsLeast (settled mode sides queued s) (Nat.find h) :=
      ⟨Nat.find_spec h, fun _ hk => Nat.find_min' h hk⟩
    refine ⟨facesAhead sides s (Nat.find h), _, drawn_iff_isLeast.mpr ⟨?_, ?_, rfl⟩⟩
    · rwa [length_facesAhead]
    · rw [length_facesAhead]

end Queues

namespace Pool

/-- A roll of a pool whose queue is drawn to its end, however many draws that takes. -/
structure RollsTo (p : Pool) (mode : Scoring) (s : σ) (r : Roll) (s' : σ) : Prop where
  pool : r.pool = p.clamped
  scoring : r.mode = mode
  drawn : Drawn p.clamped.sides mode p.clamped.count s r.faces s'

variable {p : Pool} {r : Roll}

theorem rollsTo_iff :
    p.RollsTo mode s r s' ↔ r.pool = p.clamped ∧ r.mode = mode ∧
      IsLeast (settled mode r.pool.sides p.clamped.count s) r.faces.length ∧
      r.faces = facesAhead r.pool.sides s r.faces.length ∧
      s' = sourceAfter r.pool.sides s r.faces.length := by
  constructor
  · intro ⟨hpool, hmode, hdrawn⟩
    have hsides : r.pool.sides = p.clamped.sides := congrArg sides hpool
    rw [← hsides, drawn_iff_isLeast] at hdrawn
    exact ⟨hpool, hmode, hdrawn⟩
  · intro ⟨hpool, hmode, hdrawn⟩
    have hsides : r.pool.sides = p.clamped.sides := congrArg sides hpool
    rw [hsides, ← drawn_iff_isLeast] at hdrawn
    exact ⟨hpool, hmode, hdrawn⟩

theorem roll?_eq_some_iff :
    p.roll? mode s = some (r, s') ↔
      p.RollsTo mode s r s' ∧ r.faces.length ≤ p.clamped.count + patience s := by
  constructor
  · intro h
    obtain ⟨hpool, hmode, hdraw⟩ := roll?_eq_some h
    rw [hpool, drawQueue_eq_some_iff] at hdraw
    exact ⟨⟨hpool, hmode, hdraw.1⟩, hdraw.2⟩
  · rintro ⟨⟨hpool, rfl, hdrawn⟩, hlength⟩
    rw [roll?, drawQueue_eq_some_iff.mpr ⟨hdrawn, hlength⟩, ← hpool]
    rfl

end Pool

/-- A source together with the sides of all dice that were drawn from it. -/
structure Recorded (σ : Type) where
  source : σ
  asked : List Nat

instance : DieSource (Recorded σ) where
  draw sides s := ((draw sides s.source).1, ⟨(draw sides s.source).2, s.asked ++ [sides]⟩)
  patience s := patience s.source

namespace Recorded

variable {asked : List Nat}

theorem facesAhead_mk : facesAhead sides (mk s asked) n = facesAhead sides s n := by
  induction n generalizing s asked with
  | zero => rfl
  | succ n ih => exact congrArg _ ih

theorem sourceAfter_mk :
    sourceAfter sides (mk s asked) n = ⟨sourceAfter sides s n, asked ++ List.replicate n sides⟩ := by
  induction n generalizing s asked with
  | zero => rw [List.replicate_zero, List.append_nil]; rfl
  | succ n ih =>
    rw [List.replicate_succ, List.append_cons]
    exact ih

/-- The record has no influence on the draws, and each draw of a queue is for a die with the same sides. -/
theorem drawn_mk_iff {t : Recorded σ} :
    Drawn sides mode queued (mk s asked) faces t ↔
      ∃ s', Drawn sides mode queued s faces s' ∧ t = ⟨s', asked ++ List.replicate faces.length sides⟩ := by
  have hsettled : settled mode sides queued (mk s asked) = settled mode sides queued s := by
    simp only [settled, due, facesAhead_mk]
  simp only [drawn_iff_isLeast, hsettled, facesAhead_mk, sourceAfter_mk, and_assoc]
  constructor
  · rintro ⟨hleast, hfaces, rfl⟩
    exact ⟨_, hleast, hfaces, rfl, rfl⟩
  · rintro ⟨_, hleast, hfaces, rfl, rfl⟩
    exact ⟨hleast, hfaces, rfl⟩

theorem rollsTo_mk_iff {p : Pool} {r : Roll} {t : Recorded σ} :
    p.RollsTo mode (mk s asked) r t ↔
      ∃ s', p.RollsTo mode s r s' ∧
        t = ⟨s', asked ++ List.replicate r.faces.length p.clamped.sides⟩ := by
  constructor
  · intro ⟨hpool, hmode, hdrawn⟩
    obtain ⟨s', hs', rfl⟩ := drawn_mk_iff.mp hdrawn
    exact ⟨s', ⟨hpool, hmode, hs'⟩, rfl⟩
  · rintro ⟨s', ⟨hpool, hmode, hs'⟩, rfl⟩
    exact ⟨hpool, hmode, drawn_mk_iff.mpr ⟨s', hs', rfl⟩⟩

end Recorded

namespace Roll

variable {r : Roll}

theorem total_eq_sum (r : Roll) : r.total = (r.faces.map r.mode.score).sum := by
  obtain ⟨pool, mode, faces⟩ := r
  induction faces with
  | nil => rfl
  | cons face faces ih => rw [total_cons, ih, List.map_cons, List.sum_cons]

/-- The total of Fate dice counts the plus symbols for and the minus symbols against. -/
theorem total_eq_count_sub_count (h : r.mode = .fate) :
    r.total = r.symbols.count .plus - r.symbols.count .minus := by
  obtain ⟨pool, mode, faces⟩ := r
  cases h
  induction faces with
  | nil => rfl
  | cons face faces ih =>
    rw [total_cons, ih, Scoring.score_fate]
    simp only [symbols, List.map_cons, List.count_cons]
    cases FateSymbol.ofFace face <;> simp [FateSymbol.score] <;> omega

end Roll

/-- A roll takes the dice of its pool and one more for each ten that comes up meanwhile, if tens explode: it ends at
the first number of draws that accounts for all of them, it shows the faces of these draws in order, and each draw
was for a die with the sides of the pool within its limits. The rolls that are made are those that end within the
patience of the source. A total is the sum of the scores, which on Fate dice is that of the symbols. -/
theorem Pool.roll_exploding (p : Pool) (mode : Scoring) (s : σ) (r : Roll) (s' : σ) :
    (p.RollsTo mode s r s' ↔
      r.pool = ⟨min p.count 100, max 1 (min p.sides 1000)⟩ ∧ r.mode = mode ∧
        IsLeast {n | n = min p.count 100 +
          if mode = .whiteWolf then (facesAhead r.pool.sides s n).count 10 else 0} r.faces.length ∧
        r.faces = facesAhead r.pool.sides s r.faces.length ∧
        s' = sourceAfter r.pool.sides s r.faces.length) ∧
    (p.roll? mode s = some (r, s') ↔
      p.RollsTo mode s r s' ∧ r.faces.length ≤ min p.count 100 + patience s) ∧
    (∀ asked t, p.RollsTo mode (Recorded.mk s asked) r t ↔
      ∃ s', p.RollsTo mode s r s' ∧
        t = ⟨s', asked ++ List.replicate r.faces.length (max 1 (min p.sides 1000))⟩) ∧
    (p.RollsTo mode s r s' →
      r.total = (r.faces.map mode.score).sum ∧
        (mode = .fate →
          r.symbols = (facesAhead r.pool.sides s r.faces.length).map FateSymbol.ofFace ∧
            r.total = r.symbols.count .plus - r.symbols.count .minus)) := by
  have hsettled : settled mode r.pool.sides p.clamped.count s = {n | n = min p.count 100 +
      if mode = .whiteWolf then (facesAhead r.pool.sides s n).count 10 else 0} := by
    simp only [settled, due, Scoring.added_eq]
    rfl
  refine ⟨?_, roll?_eq_some_iff, fun asked t => Recorded.rollsTo_mk_iff, ?_⟩
  · rw [rollsTo_iff, hsettled]
    rfl
  · intro h
    obtain ⟨-, hmode, -, hfaces, -⟩ := rollsTo_iff.mp h
    refine ⟨hmode ▸ r.total_eq_sum, ?_⟩
    rintro rfl
    exact ⟨congrArg _ hfaces, Roll.total_eq_count_sub_count hmode⟩

/-- A ten adds a die that shows a ten again, and so on until the two. -/
theorem roll_exploding_three_tens :
    ∃ r s', Pool.roll? ⟨1, 10⟩ .whiteWolf (Script.ofList [10, 10, 10, 2]) = some (r, s') ∧
      r.faces = facesAhead 10 (Script.ofList [10, 10, 10, 2]) 4 ∧
        IsLeast {n | n = 1 + (facesAhead 10 (Script.ofList [10, 10, 10, 2]) n).count 10} 4 ∧
          r.total = (r.faces.map Scoring.whiteWolf.score).sum := by
  let r : Roll := ⟨⟨1, 10⟩, .whiteWolf, [10, 10, 10, 2]⟩
  have hroll : Pool.roll? ⟨1, 10⟩ .whiteWolf (Script.ofList [10, 10, 10, 2]) = some (r, ⟨[], 2⟩) := rfl
  obtain ⟨hends, hmade, -, htotal⟩ :=
    Pool.roll_exploding ⟨1, 10⟩ .whiteWolf (Script.ofList [10, 10, 10, 2]) r ⟨[], 2⟩
  have hrolls := (hmade.mp hroll).1
  obtain ⟨-, -, hleast, hfaces, -⟩ := hends.mp hrolls
  exact ⟨r, _, hroll, hfaces, hleast, (htotal hrolls).1⟩

end Tabletop

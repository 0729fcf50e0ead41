import Tabletop.Query.Tray

/-!
Rolling pools from left to right. A roll is of the pool within its limits and in the mode it was asked
for, and only exploding faces make it longer than its pool. What a script hands out is a stream that is
fixed before the first draw: rolls take its elements one by one, each brought within the die that is drawn
for.
-/

namespace Tabletop

namespace Tray

variable {σ : Type}

/-- The tray on which texts were evaluated since. -/
def withTexts (tray : Tray σ) (texts : List String) : Tray σ :=
  { tray with evaluated := tray.evaluated ++ texts }

@[simp] theorem dice_withTexts (tray : Tray σ) (texts : List String) :
    (tray.withTexts texts).dice = tray.dice := rfl

@[simp] theorem evaluated_withTexts (tray : Tray σ) (texts : List String) :
    (tray.withTexts texts).evaluated = tray.evaluated ++ texts := rfl

@[simp] theorem withTexts_nil (tray : Tray σ) : tray.withTexts [] = tray := by
  simp [withTexts]

theorem withTexts_singleton (tray : Tray σ) (text : String) :
    tray.withTexts [text] = { tray with evaluated := tray.evaluated.push text } := by
  rw [withTexts, mk.injEq]
  exact ⟨rfl, rfl, Array.ext' (by simp)⟩

@[simp] theorem withTexts_withTexts (tray : Tray σ) (texts more : List String) :
    (tray.withTexts texts).withTexts more = tray.withTexts (texts ++ more) := by
  rw [withTexts, withTexts, withTexts, mk.injEq]
  exact ⟨rfl, rfl, Array.ext' (by simp)⟩

end Tray

section Rolls

variable {σ : Type} [DieSource σ] {mode : Scoring}

/-- What holds of an empty queue and is carried from the draws that follow one draw to all of them holds
of every queue that is drawn to its end. -/
theorem drawQueue_induction {sides : Nat} {P : Nat → σ → List Nat → σ → Prop} (empty : ∀ s, P 0 s [] s)
    (drawn : ∀ queued s later s',
      P (queued + if mode.explodes (draw sides s).1 then 1 else 0) (draw sides s).2 later s' →
        P (queued + 1) s ((draw sides s).1 :: later) s')
    {budget queued : Nat} {s s' : σ} {faces : List Nat}
    (h : drawQueue sides mode budget queued s = some (faces, s')) : P queued s faces s' := by
  induction budget generalizing queued s faces with
  | zero =>
    cases queued with
    | zero =>
      cases h
      exact empty _
    | succ queued => cases h
  | succ budget ih =>
    cases queued with
    | zero =>
      cases h
      exact empty _
    | succ queued =>
      rw [drawQueue_succ, Option.map_eq_some_iff] at h
      obtain ⟨⟨later, s₁⟩, hlater, hfaces⟩ := h
      cases hfaces
      exact drawn queued s later _ (ih hlater)

theorem length_of_drawQueue {sides budget queued : Nat} {s s' : σ} {faces : List Nat}
    (h : drawQueue sides mode budget queued s = some (faces, s')) (hmode : mode ≠ .whiteWolf) :
    faces.length = queued := by
  apply drawQueue_induction (P := fun queued _ faces _ => faces.length = queued) ?_ ?_ h
  · intro s
    rfl
  · intro queued s later s' hlater
    rw [List.length_cons, hlater]
    simp [hmode]

theorem Pool.roll?_eq_some {p : Pool} {r : Roll} {s s' : σ} (h : p.roll? mode s = some (r, s')) :
    r.pool = p.clamped ∧ r.mode = mode ∧
      drawQueue r.pool.sides mode (p.clamped.count + patience s) p.clamped.count s =
        some (r.faces, s') := by
  rw [Pool.roll?, Option.map_eq_some_iff] at h
  obtain ⟨⟨faces, s₁⟩, hfaces, hr⟩ := h
  cases hr
  exact ⟨rfl, rfl, hfaces⟩

theorem Pool.length_of_roll? {p : Pool} {r : Roll} {s s' : σ} (h : p.roll? mode s = some (r, s'))
    (hmode : mode ≠ .whiteWolf) : r.faces.length = r.pool.count := by
  obtain ⟨hpool, -, hdraw⟩ := Pool.roll?_eq_some h
  rw [length_of_drawQueue hdraw hmode, hpool]

namespace Tray

variable {p : Pool} {ps : List Pool} {r : Roll} {rolls : List Roll} {tray tray' : Tray σ}

theorem roll_eq_ok (h : tray.roll p mode = (.ok r, tray')) :
    ∃ s, p.roll? mode tray.dice = some (r, s) ∧
      tray' = { tray with dice := s, rolled := tray.rolled.push r } := by
  unfold roll at h
  split at h
  · cases h
  · next r' s hroll =>
    cases h
    exact ⟨s, hroll, rfl⟩

theorem roll_clamped : tray.roll p.clamped mode = tray.roll p mode := by
  simp only [roll, Pool.roll?_clamped, Pool.clamped_clamped]

theorem rollAll_map_clamped : tray.rollAll mode (ps.map Pool.clamped) = tray.rollAll mode ps := by
  induction ps generalizing tray with
  | nil => rfl
  | cons p ps ih => simp only [List.map_cons, rollAll, roll_clamped, ih]

theorem rollAll_cons_eq_ok (h : tray.rollAll mode (p :: ps) = (.ok rolls, tray')) :
    ∃ r more tray₁, tray.roll p mode = (.ok r, tray₁) ∧
      tray₁.rollAll mode ps = (.ok more, tray') ∧ rolls = r :: more := by
  rw [rollAll] at h
  split at h
  · cases h
  · next r tray₁ hroll =>
    split at h
    · cases h
    · next more tray₂ hmore =>
      cases h
      exact ⟨r, more, tray₁, hroll, hmore, rfl⟩

/-- What holds when nothing is rolled and is carried from the rolls that follow one roll to all of them
holds whenever pools are rolled to the end. -/
theorem rollAll_induction {P : List Pool → Tray σ → List Roll → Tray σ → Prop}
    (nil : ∀ tray, P [] tray [] tray)
    (cons : ∀ p ps tray r s more tray', Pool.roll? p mode tray.dice = some (r, s) →
      P ps { tray with dice := s, rolled := tray.rolled.push r } more tray' →
        P (p :: ps) tray (r :: more) tray')
    (h : tray.rollAll mode ps = (.ok rolls, tray')) : P ps tray rolls tray' := by
  induction ps generalizing tray rolls with
  | nil =>
    cases h
    exact nil _
  | cons p ps ih =>
    obtain ⟨r, more, tray₁, hroll, hmore, rfl⟩ := rollAll_cons_eq_ok h
    obtain ⟨s, hr, rfl⟩ := roll_eq_ok hroll
    exact cons p ps tray r s more tray' hr (ih hmore)

/-- Each pool is rolled once, and in order. -/
theorem pools_of_rollAll (h : tray.rollAll mode ps = (.ok rolls, tray')) :
    rolls.map Roll.pool = ps.map Pool.clamped := by
  apply rollAll_induction (P := fun ps _ rolls _ => rolls.map Roll.pool = ps.map Pool.clamped) ?_ ?_ h
  · intro tray
    rfl
  · intro p ps tray r s more tray' hr hmore
    rw [List.map_cons, List.map_cons, (Pool.roll?_eq_some hr).1, hmore]

theorem length_of_rollAll (h : tray.rollAll mode ps = (.ok rolls, tray')) :
    rolls.length = ps.length := by
  simpa using congrArg List.length (pools_of_rollAll h)

theorem forall_of_rollAll {P : Roll → Prop} (h : tray.rollAll mode ps = (.ok rolls, tray'))
    (hP : ∀ (p : Pool) (s : σ) (r : Roll) (s' : σ), p.roll? mode s = some (r, s') → P r) :
    ∀ r ∈ rolls, P r := by
  apply rollAll_induction (P := fun _ _ rolls _ => ∀ r ∈ rolls, P r) ?_ ?_ h
  · intro tray
    exact List.forall_mem_nil _
  · intro p ps tray r s more tray' hr hmore
    exact List.forall_mem_cons.mpr ⟨hP p tray.dice r s hr, hmore⟩

/-- Rolling fails at a pool that does not end, when all pools before it are rolled. -/
theorem exists_endless_of_rollAll {e : Failure} (h : tray.rollAll mode ps = (.error e, tray')) :
    ∃ front p back rolls, ps = front ++ p :: back ∧ tray.rollAll mode front = (.ok rolls, tray') ∧
      p.roll? mode tray'.dice = none ∧ e = .endless p.clamped := by
  induction ps generalizing tray with
  | nil => cases h
  | cons q ps ih =>
    rw [rollAll] at h
    cases hroll : q.roll? mode tray.dice with
    | none =>
      simp only [roll, hroll] at h
      cases h
      exact ⟨[], q, ps, [], rfl, rfl, hroll, rfl⟩
    | some rolled =>
      simp only [roll, hroll] at h
      split at h
      · next hmore =>
        cases h
        obtain ⟨front, p, back, rolls, rfl, hfront, hp, he⟩ := ih hmore
        refine ⟨q :: front, p, back, rolled.1 :: rolls, rfl, ?_, hp, he⟩
        simp only [rollAll, roll, hroll, hfront]
      · cases h

theorem rollAll_eq_error {e : Failure} (h : tray.rollAll mode ps = (.error e, tray')) :
    ∃ p, e = .endless p := by
  obtain ⟨-, p, -, -, -, -, -, he⟩ := exists_endless_of_rollAll h
  exact ⟨p.clamped, he⟩

/-- Rolling evaluates nothing, whether it succeeds or not. -/
theorem evaluated_rollAll (mode : Scoring) (ps : List Pool) (tray : Tray σ) :
    (tray.rollAll mode ps).2.evaluated = tray.evaluated := by
  induction ps generalizing tray with
  | nil => rfl
  | cons p ps ih =>
    rw [rollAll, roll]
    cases hroll : p.roll? mode tray.dice with
    | none => rfl
    | some rolled =>
      have hrest := ih { tray with dice := rolled.2, rolled := tray.rolled.push rolled.1 }
      dsimp only
      split
      · next hmore =>
        rw [hmore] at hrest
        exact hrest
      · next hmore =>
        rw [hmore] at hrest
        exact hrest

theorem evaluated_of_rollAll (h : tray.rollAll mode ps = (.ok rolls, tray')) :
    tray'.evaluated = tray.evaluated := by
  rw [← evaluated_rollAll mode ps tray, h]

/-- What was evaluated has no influence on what is rolled. -/
theorem rollAll_withTexts (texts : List String) :
    (tray.withTexts texts).rollAll mode ps =
      ((tray.rollAll mode ps).1, (tray.rollAll mode ps).2.withTexts texts) := by
  induction ps generalizing tray with
  | nil => rfl
  | cons p ps ih =>
    simp only [rollAll, roll, dice_withTexts]
    cases p.roll? mode tray.dice with
    | none => rfl
    | some rolled =>
      have hrest := @ih { tray with dice := rolled.2, rolled := tray.rolled.push rolled.1 }
      simp only [withTexts] at hrest ⊢
      rw [hrest]
      cases rollAll mode ps { tray with dice := rolled.2, rolled := tray.rolled.push rolled.1 } with
      | mk outcome after => cases outcome <;> rfl

theorem rollAll_of_withTexts {texts : List String}
    (h : (tray.withTexts texts).rollAll mode ps = (.ok rolls, tray')) :
    ∃ tray₁, tray.rollAll mode ps = (.ok rolls, tray₁) ∧ tray' = tray₁.withTexts texts := by
  rw [rollAll_withTexts, Prod.mk.injEq] at h
  exact ⟨_, Prod.ext h.1 rfl, h.2.symm⟩

end Tray

end Rolls

namespace Script

/-- The faces that a script hands out: those to come, then the last of them for ever, or if none is to
come the one that is repeated. -/
def stream (s : Script) (i : Nat) : Nat := s.faces[i]?.getD (s.faces.getLastD s.repeated)

/-- The next `n` faces. -/
def ahead (s : Script) (n : Nat) : List Nat := (List.range n).map s.stream

/-- The script when `n` faces were drawn. -/
def after (s : Script) : Nat → Script
  | 0 => s
  | n + 1 => s.next.2.after n

theorem stream_zero (s : Script) : s.stream 0 = s.next.1 := by
  rcases s with ⟨_ | ⟨f, fs⟩, r⟩ <;> rfl

theorem stream_succ (s : Script) (i : Nat) : s.stream (i + 1) = s.next.2.stream i := by
  rcases s with ⟨_ | ⟨f, fs⟩, r⟩
  · rfl
  · cases fs <;> rfl

theorem ahead_succ (s : Script) (n : Nat) : s.ahead (n + 1) = s.next.1 :: s.next.2.ahead n := by
  rw [ahead, List.range_succ_eq_map, List.map_cons, List.map_map, stream_zero]
  exact congrArg _ (List.map_congr_left fun i _ => s.stream_succ i)

@[simp] theorem length_ahead (s : Script) (n : Nat) : (s.ahead n).length = n := by simp [ahead]

theorem ahead_add (s : Script) (m n : Nat) : s.ahead (m + n) = s.ahead m ++ (s.after m).ahead n := by
  induction m generalizing s with
  | zero => rw [Nat.zero_add]; rfl
  | succ m ih => rw [Nat.add_right_comm, ahead_succ, ih, ahead_succ, List.cons_append]; rfl

theorem after_add (s : Script) (m n : Nat) : s.after (m + n) = (s.after m).after n := by
  induction m generalizing s with
  | zero => rw [Nat.zero_add]; rfl
  | succ m ih => rw [Nat.add_right_comm, after, ih]; rfl

theorem remaining_after (s : Script) (n : Nat) : (s.after n).remaining = s.remaining - n := by
  induction n generalizing s with
  | zero => rfl
  | succ n ih => rw [after, ih, remaining_next]; omega

end Script

theorem drawQueue_script {mode : Scoring} {sides budget queued : Nat} {s s' : Script} {faces : List Nat}
    (h : drawQueue sides mode budget queued s = some (faces, s')) :
    faces = (s.ahead faces.length).map (clampFace sides) ∧ s' = s.after faces.length := by
  apply drawQueue_induction (P := fun _ s faces s' =>
    faces = (s.ahead faces.length).map (clampFace sides) ∧ s' = s.after faces.length) ?_ ?_ h
  · intro s
    exact ⟨rfl, rfl⟩
  · intro queued s later s' hlater
    rw [List.length_cons, Script.ahead_succ, List.map_cons]
    exact ⟨congrArg _ hlater.1, hlater.2⟩

/-- What a die shows: a number, or a symbol if it is a Fate die. -/
inductive Face where
  | number (n : Nat)
  | symbol (s : FateSymbol)
  deriving DecidableEq, Repr

def Scoring.shown (mode : Scoring) (face : Nat) : Face :=
  if mode = .fate then .symbol (.ofFace face) else .number face

/-- What the dice of a roll show, in the order of the draws. -/
def Roll.listing (r : Roll) : List Face := r.faces.map r.mode.shown

/-- The mode and the sides of the die that each face was drawn for. -/
def Roll.dice (r : Roll) : List (Scoring × Nat) := List.replicate r.faces.length (r.mode, r.pool.sides)

/-- The script hands out the faces of the rolls, in their order and no others, each brought within the die
that it is drawn for, and becomes `s'` by that. -/
structure Deals (s : Script) (rolls : List Roll) (s' : Script) : Prop where
  faces : rolls.flatMap Roll.faces = List.zipWith (fun die => clampFace die.2) (rolls.flatMap Roll.dice)
    (s.ahead (rolls.flatMap Roll.faces).length)
  listing : rolls.flatMap Roll.listing = List.zipWith (fun die face => die.1.shown (clampFace die.2 face))
    (rolls.flatMap Roll.dice) (s.ahead (rolls.flatMap Roll.faces).length)
  script : s' = s.after (rolls.flatMap Roll.faces).length

theorem deals_nil (s : Script) : Deals s [] s := ⟨rfl, rfl, rfl⟩

theorem length_dice (rolls : List Roll) :
    (rolls.flatMap Roll.dice).length = (rolls.flatMap Roll.faces).length := by
  simp [List.length_flatMap, Roll.dice]

theorem Deals.append {s s₁ s₂ : Script} {rolls more : List Roll} (h : Deals s rolls s₁)
    (h' : Deals s₁ more s₂) : Deals s (rolls ++ more) s₂ := by
  obtain ⟨hfaces, hlisting, rfl⟩ := h
  obtain ⟨hfaces', hlisting', rfl⟩ := h'
  have hlength : (rolls.flatMap Roll.dice).length =
      (s.ahead (rolls.flatMap Roll.faces).length).length := by
    rw [length_dice, Script.length_ahead]
  constructor
  · simp only [List.flatMap_append, List.length_append, Script.ahead_add, List.zipWith_append hlength]
    rw [← hfaces, ← hfaces']
  · simp only [List.flatMap_append, List.length_append, Script.ahead_add, List.zipWith_append hlength]
    rw [← hlisting, ← hlisting']
  · rw [List.flatMap_append, List.length_append, Script.after_add]

theorem Deals.remaining {s s' : Script} {rolls : List Roll} (h : Deals s rolls s') :
    s'.remaining + min (rolls.flatMap Roll.faces).length s.remaining = s.remaining := by
  rw [h.script, Script.remaining_after]
  omega

theorem zipWith_replicate_length {α β γ : Type} (f : α → β → γ) (a : α) (bs : List β) :
    List.zipWith f (List.replicate bs.length a) bs = bs.map (f a) := by
  induction bs with
  | nil => rfl
  | cons b bs ih => rw [List.length_cons, List.replicate_succ, List.zipWith_cons_cons, ih, List.map_cons]

theorem deals_of_roll? {p : Pool} {mode : Scoring} {r : Roll} {s s' : Script}
    (h : p.roll? mode s = some (r, s')) : Deals s [r] s' := by
  obtain ⟨-, -, hdraw⟩ := Pool.roll?_eq_some h
  obtain ⟨hfaces, hscript⟩ := drawQueue_script hdraw
  have hdice : r.dice = List.replicate (s.ahead r.faces.length).length (r.mode, r.pool.sides) := by
    rw [Script.length_ahead, Roll.dice]
  constructor
  · rw [List.flatMap_singleton, List.flatMap_singleton, hdice, zipWith_replicate_length]
    exact hfaces
  · rw [List.flatMap_singleton, List.flatMap_singleton, List.flatMap_singleton, hdice,
      zipWith_replicate_length, Roll.listing]
    exact (congrArg (List.map r.mode.shown) hfaces).trans List.map_map
  · rw [List.flatMap_singleton]
    exact hscript

theorem deals_of_rollAll {mode : Scoring} {ps : List Pool} {rolls : List Roll} {tray tray' : Tray Script}
    (h : tray.rollAll mode ps = (.ok rolls, tray')) : Deals tray.dice rolls tray'.dice := by
  apply Tray.rollAll_induction (P := fun _ tray rolls tray' => Deals tray.dice rolls tray'.dice) ?_ ?_ h
  · intro tray
    exact deals_nil _
  · intro p ps tray r s more tray' hr hmore
    exact (deals_of_roll? hr).append hmore

end Tabletop

import Tabletop.Proofs.DrawnDice
import Tabletop.Proofs.TotalBounds

/-!
The work that a query without a repetition mark can cause. A pool takes at least three characters, and between two
pools there is at least one more, since digits that follow each other belong to one run. So the pools are at most a
quarter of the characters, each with at most a hundred dice; only tens may add to these, one die for each. Main
statement: these limits hold for all that is rolled, drawn and evaluated, whatever comes of the answer, and also for
the dice of a pool that does not end, however many of them are drawn.
-/

namespace Tabletop

variable {σ : Type} [DieSource σ] {mode : Scoring} {p : Pool} {ps : List Pool} {s s' : σ} {r : Roll}
  {rolls : List Roll} {n : Nat}

namespace Pool

theorem length_faces_of_roll? (h : p.roll? mode s = some (r, s')) :
    r.faces.length = r.pool.count + mode.added r.faces := by
  obtain ⟨⟨hpool, -, hdrawn⟩, -⟩ := roll?_eq_some_iff.mp h
  rw [hdrawn.length_eq, hpool]

/-- As long as the patience lasts, a pool that does not end has more draws to make than were made. -/
theorem lt_due_of_roll?_eq_none (h : p.roll? mode s = none) (hn : n ≤ p.clamped.count + patience s) :
    n < due mode p.clamped.sides p.clamped.count s n := by
  by_contra hle
  obtain ⟨m, hm, hsettled⟩ := exists_settled_of_due_le (Nat.not_lt.mp hle)
  obtain ⟨faces, s', hdrawn⟩ := exists_drawn_iff.mpr ⟨m, hsettled⟩
  have hroll : p.roll? mode s = some (⟨p.clamped, mode, faces⟩, s') := by
    refine roll?_eq_some_iff.mpr ⟨⟨rfl, rfl, hdrawn⟩, ?_⟩
    exact ((hdrawn.length_le hsettled).trans hm).trans hn
  rw [h] at hroll
  cases hroll

end Pool

namespace Tray

variable {tray tray' : Tray σ}

theorem drawnFor_of_rollAll (h : tray.rollAll mode ps = (.ok rolls, tray')) :
    tray'.rolled = tray.rolled ++ rolls ∧ DrawnFor tray.dice rolls tray'.dice := by
  have haccounts : tray.Accounts (fun _ => True) id (tray.rollAll mode ps) :=
    accounts_rollAll (fun _ _ _ => trivial) tray
  rw [h] at haccounts
  obtain ⟨all, hadds, hlisted⟩ := haccounts
  obtain rfl : rolls = all := hlisted rolls rfl
  exact ⟨hadds.rolled, hadds.drawn⟩

end Tray

/-- Rolls show at most a hundred faces each, and one more for each ten if tens explode. -/
theorem length_flatMap_faces_le
    (h : ∀ r ∈ rolls, r.faces.length ≤ 100 + if mode = .whiteWolf then r.faces.count 10 else 0) :
    (rolls.flatMap Roll.faces).length ≤
      100 * rolls.length + if mode = .whiteWolf then (rolls.flatMap Roll.faces).count 10 else 0 := by
  induction rolls with
  | nil => exact Nat.zero_le _
  | cons r rolls ih =>
    obtain ⟨hr, hrolls⟩ := List.forall_mem_cons.mp h
    have hrest := ih hrolls
    rw [List.flatMap_cons, List.length_append, List.count_append, List.length_cons]
    split_ifs at hr hrest ⊢ <;> omega

namespace Query

variable {cs : List Char}

/-- Four characters for each pool, but one less for a pool at the front. -/
theorem four_mul_length_pools_le (cs : List Char) :
    4 * (pools (pieces cs)).length ≤ cs.length + 1 ∧
      ((∀ c ∈ cs.head?, Text.isDecimalDigit c = false) → 4 * (pools (pieces cs)).length ≤ cs.length) := by
  induction cs using pieces.induct with
  | case1 => simp [pieces, pools]
  | case2 c others written rest h ih =>
    obtain ⟨count, letter, sides, hwritten, hcount, hcounts, -, hsides, -, hrest⟩ := eq_append_of_leadingTerm? h
    have happend := (append_of_leadingTerm? h).1
    have hlength : 3 + rest.length ≤ (c :: others).length := by
      have := List.length_pos_iff.mpr hcount
      have := List.length_pos_iff.mpr hsides
      rw [← happend, hwritten]
      simp only [List.length_append, List.length_cons]
      omega
    have hpools : (pools (pieces (c :: others))).length ≤ (pools (pieces rest)).length + 1 := by
      rw [pieces_of_leadingTerm? h, pools, pools, List.filterMap_cons]
      split
      · exact Nat.le_succ _
      · exact Nat.le_refl _
    -- Behind the sides there is no digit.
    have hbehind := ih.2 hrest
    refine ⟨by omega, fun hhead => ?_⟩
    have hfirst : Text.isDecimalDigit c = true := by
      obtain ⟨digit, digits, rfl⟩ := List.exists_cons_of_ne_nil hcount
      rw [hwritten] at happend
      cases happend
      exact hcounts _ List.mem_cons_self
    simp [hhead c rfl] at hfirst
  | case3 c others h hdigit ih =>
    have hle := Arithmetic.length_dropWhile_le Text.isDecimalDigit others
    rw [pieces_cons_of_none h, if_pos hdigit, pools, List.filterMap_cons_none rfl, ← pools, List.length_cons]
    omega
  | case4 c others h hdigit ih =>
    rw [pieces_cons_of_none h, if_neg hdigit, pools, List.filterMap_cons_none rfl, ← pools, List.length_cons]
    omega

theorem length_leafPools_le (cs : List Char) : (leafPools cs).length ≤ (cs.length + 1) / 4 := by
  have hle := (four_mul_length_pools_le (rolledText cs)).1
  rw [length_rolledText] at hle
  rw [leafPools]
  omega

variable {evaluator : Arithmetic.Evaluator} {query : String} {outcome : Except Failure (Result Roll)} {limit : Nat}
  {tray tray₁ after : Tray σ}

/-- What was rolled, drawn and evaluated on the way from one tray to another, at most `limit` pools. Tens are counted
apart from the dice that the pools have, and unless they explode there are no other dice. -/
structure WorkWithin (mode : Scoring) (limit : Nat) (tray : Tray σ) (rolls : List Roll) (texts : List String)
    (after : Tray σ) : Prop where
  rolled : after.rolled = tray.rolled ++ rolls
  drawn : DrawnFor tray.dice rolls after.dice
  evaluated : after.evaluated = tray.evaluated ++ texts
  pools : rolls.length ≤ limit
  sides : ∀ r ∈ rolls, 1 ≤ r.pool.sides ∧ r.pool.sides ≤ 1000
  dice : (rolls.flatMap Roll.faces).length ≤
    100 * limit + if mode = .whiteWolf then (rolls.flatMap Roll.faces).count 10 else 0
  evaluations : texts.length ≤ 1

theorem workWithin_nil (mode : Scoring) (limit : Nat) (tray : Tray σ) : WorkWithin mode limit tray [] [] tray where
  rolled := Array.ext' (by simp)
  drawn := .nil tray.dice
  evaluated := Array.ext' (by simp)
  pools := Nat.zero_le _
  sides := List.forall_mem_nil _
  dice := Nat.zero_le _
  evaluations := Nat.zero_le _

theorem WorkWithin.evaluate (h : WorkWithin mode limit tray rolls [] tray₁) (text : String) :
    WorkWithin mode limit tray rolls [text] { tray₁ with evaluated := tray₁.evaluated.push text } where
  rolled := h.rolled
  drawn := h.drawn
  evaluated := by
    rw [h.evaluated]
    exact Array.ext' (by simp)
  pools := h.pools
  sides := h.sides
  dice := h.dice
  evaluations := Nat.le_refl 1

/-- In a text with a marker of Fate dice no ten explodes in any mode. -/
theorem length_faces_le_of_rolledMode (h : p.roll? (rolledMode cs mode) s = some (r, s')) :
    r.faces.length ≤ 100 + if mode = .whiteWolf then r.faces.count 10 else 0 := by
  have hlength := Pool.length_faces_of_roll? h
  have hcount : r.pool.count ≤ 100 := by
    rw [(Pool.roll?_eq_some h).1]
    exact p.clamped_count_le
  rw [Scoring.added_eq, explodingFace] at hlength
  by_cases hmode : mode = .whiteWolf
  · rw [if_pos hmode]
    split at hlength <;> omega
  · rw [if_neg (rolledMode_ne_whiteWolf hmode cs)] at hlength
    omega

theorem workWithin_of_rollAll (h : tray.rollAll (rolledMode cs mode) ps = (.ok rolls, tray₁))
    (hlimit : ps.length ≤ limit) : WorkWithin mode limit tray rolls [] tray₁ where
  rolled := (Tray.drawnFor_of_rollAll h).1
  drawn := (Tray.drawnFor_of_rollAll h).2
  evaluated := by
    rw [Tray.evaluated_of_rollAll h]
    exact Array.ext' (by simp)
  pools := (Tray.length_of_rollAll h).trans_le hlimit
  sides := by
    refine Tray.forall_of_rollAll h fun p s r s' hr => ?_
    rw [(Pool.roll?_eq_some hr).1]
    exact ⟨p.one_le_clamped_sides, p.clamped_sides_le⟩
  dice := by
    have hfaces := length_flatMap_faces_le (Tray.forall_of_rollAll h fun _ _ _ _ => length_faces_le_of_rolledMode)
    have hrolls := Tray.length_of_rollAll h
    exact hfaces.trans (Nat.add_le_add_right (Nat.mul_le_mul_left 100 (by omega)) _)
  evaluations := Nat.zero_le _

/-- Only a pool of exploding dice can fail to end. It is one more pool than those rolled before it, and these leave a
hundred dice to it, which its draws exceed by tens alone at any time. -/
theorem workWithin_of_rollAll_error {e : Failure}
    (h : tray.rollAll (rolledMode cs mode) ps = (.error e, after)) (hlimit : ps.length ≤ limit) :
    ∃ rolls p, e = .endless p ∧ WorkWithin mode limit tray rolls [] after ∧ mode = .whiteWolf ∧
      rolls.length < limit ∧ 1 ≤ p.sides ∧ p.sides ≤ 1000 ∧
        ∀ n ≤ p.count + patience after.dice,
          let faces := rolls.flatMap Roll.faces ++ facesAhead p.sides after.dice n
          faces.length ≤ 100 * limit + faces.count 10 := by
  obtain ⟨front, p, back, rolls, hfront, hdone, hendless, rfl⟩ := Tray.exists_endless_of_rollAll h
  have hlength : front.length < limit := by
    rw [hfront, List.length_append, List.length_cons] at hlimit
    omega
  have hmode : mode = .whiteWolf := by
    by_contra hmode
    obtain ⟨r, s', hr⟩ := p.exists_roll? (rolledMode_ne_whiteWolf hmode cs) after.dice
    rw [hendless] at hr
    cases hr
  refine ⟨rolls, p.clamped, rfl, workWithin_of_rollAll hdone hlength.le, hmode,
    (Tray.length_of_rollAll hdone).trans_lt hlength, p.one_le_clamped_sides, p.clamped_sides_le, ?_⟩
  intro n hn
  have hbefore := (workWithin_of_rollAll hdone (Nat.le_refl front.length)).dice
  have hdue := Pool.lt_due_of_roll?_eq_none hendless hn
  have hcount := p.clamped_count_le
  have hadded : (rolledMode cs mode).added (facesAhead p.clamped.sides after.dice n) ≤
      (facesAhead p.clamped.sides after.dice n).count 10 := by
    rw [Scoring.added_eq]
    split
    · exact Nat.le_refl _
    · exact Nat.zero_le _
  rw [if_pos hmode] at hbefore
  simp only [Pool.maxCount] at hcount
  simp only [due] at hdue
  simp only [List.length_append, List.count_append, length_facesAhead]
  omega

/-- A query of `L` characters without a mark rolls at most `(L + 1) / 4` pools, whatever comes of it, and nothing is
drawn but their dice, at most a hundred for each of so many pools and, if tens explode, one more for each ten. At most
one text is evaluated. Only a pool of exploding dice can fail to end; it is then one more of these pools, and its draws
are within the same limit at any time. -/
theorem answer_work (hmarks : ∀ c ∈ query.toList, isRepetitionMark c = false)
    (h : answer evaluator query mode tray = (outcome, after)) :
    ∃ rolls texts, WorkWithin mode ((query.length + 1) / 4) tray rolls texts after ∧
      ∀ p, outcome = .error (.endless p) →
        mode = .whiteWolf ∧ rolls.length < (query.length + 1) / 4 ∧ 1 ≤ p.sides ∧ p.sides ≤ 1000 ∧
          ∀ n ≤ p.count + patience after.dice,
            let faces := rolls.flatMap Roll.faces ++ facesAhead p.sides after.dice n
            faces.length ≤ 100 * ((query.length + 1) / 4) + faces.count 10 := by
  have hpools := length_leafPools_le query.toList
  rw [String.length_toList] at hpools
  rw [answer, answerWithin_of_none (splitRepetition?_eq_none_iff.mpr hmarks)] at h
  split at h
  · cases hrolls : tray.rollAll (rolledMode query.toList mode) (leafPools query.toList) with
    | mk rolled tray₁ =>
      cases rolled with
      | ok rolls =>
        have hwork := workWithin_of_rollAll hrolls hpools
        rw [answerTerms_of_rollAll hrolls] at h
        cases h
        refine ⟨rolls, _, hwork.evaluate _, ?_⟩
        intro p hp
        split at hp
        · cases hp
        · split at hp <;> cases hp
      | error e =>
        rw [answerTerms_of_rollAll_error hrolls] at h
        cases h
        obtain ⟨rolls, p, rfl, hwork, hends⟩ := workWithin_of_rollAll_error hrolls hpools
        refine ⟨rolls, [], hwork, ?_⟩
        rintro _ ⟨⟩
        exact hends
  · cases h
    refine ⟨[], [], workWithin_nil mode _ tray, ?_⟩
    rintro p ⟨⟩

/-- Of two pools the second does not end, since the last face of the script is a ten. -/
theorem answer_work_endless_pool :
    ∃ rolls texts after, answer Arithmetic.evaluate "1d10+1d10" .whiteWolf (.ofDice (Script.ofList [3, 10])) =
        (.error (.endless ⟨1, 10⟩), after) ∧
      WorkWithin .whiteWolf 2 (.ofDice (Script.ofList [3, 10])) rolls texts after ∧ rolls.length < 2 := by
  let tray := Tray.ofDice (Script.ofList [3, 10])
  have hfailure : (match (answer Arithmetic.evaluate "1d10+1d10" .whiteWolf tray).1 with
      | .ok _ => none
      | .error e => some e) = some (.endless ⟨1, 10⟩) := by decide +kernel
  have hmarks : ∀ c ∈ "1d10+1d10".toList, isRepetitionMark c = false := splitRepetition?_eq_none_iff.mp rfl
  have hlength : ("1d10+1d10".length + 1) / 4 = 2 := by decide +kernel
  cases h : answer Arithmetic.evaluate "1d10+1d10" .whiteWolf tray with
  | mk outcome after =>
    rw [h] at hfailure
    cases outcome with
    | ok r => cases hfailure
    | error e =>
      cases hfailure
      obtain ⟨rolls, texts, hwork, hends⟩ := answer_work hmarks h
      obtain ⟨-, hrolls, -⟩ := hends _ rfl
      rw [hlength] at hwork hrolls
      exact ⟨rolls, texts, after, rfl, hwork, hrolls⟩

end Query

end Tabletop

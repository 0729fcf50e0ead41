import Tabletop.Proofs.Ending
import Tabletop.Proofs.Lines
import Tabletop.Proofs.Locations
import Tabletop.Proofs.Positions
import Mathlib.Algebra.Order.BigOperators.Group.List
import Mathlib.Algebra.Order.Ring.Int

/-!
How large totals are. A face scores within limits that its mode and the sides of its die set, so a total lies within
limits that the pool sets, and a total within these takes no more characters than the pool was written with: a product
has no more digits than its factors together, and a sign takes the place of the letter. Main statement: every total
lies within the limits of its mode, and unless tens explode no text that is evaluated is longer than the query behind
the last mark, so that the position of an arithmetic error lies in it.
-/

namespace Tabletop

open Query Arithmetic

namespace Scoring

variable {mode : Scoring} {sides face : Nat}

/-- The least score of a face. -/
def leastScore : Scoring → Int
  | sum => 1
  | fate => -1
  | whiteWolf | scion => 0

/-- The greatest score of a face on a die with that many sides. -/
def greatestScore (sides : Nat) : Scoring → Int
  | sum => sides
  | fate | whiteWolf => 1
  | scion => 2

theorem score_mem (h : 1 ≤ face ∧ face ≤ sides) :
    mode.leastScore ≤ mode.score face ∧ mode.score face ≤ mode.greatestScore sides := by
  cases mode with
  | sum => exact ⟨Int.ofNat_le.mpr h.1, Int.ofNat_le.mpr h.2⟩
  | fate =>
    simp only [score_fate, leastScore, greatestScore]
    cases FateSymbol.ofFace face <;> decide
  | whiteWolf | scion =>
    simp only [score, leastScore, greatestScore]
    omega

/-- A face that adds a die is a success. -/
theorem one_le_score_of_explodes (h : mode.explodes face = true) : 1 ≤ mode.score face := by
  obtain ⟨rfl, rfl⟩ := explodes_iff.mp h
  decide

end Scoring

namespace Roll

variable {r : Roll}

/-- The limits of a total for `count` dice with `sides` sides. White Wolf dice may be more than the pool has, and each
die beyond it stands for a ten. -/
def Within (count sides : Nat) (r : Roll) : Prop :=
  match r.mode with
  | .sum => count ≤ r.total ∧ r.total ≤ count * sides
  | .fate => -count ≤ r.total ∧ r.total ≤ count
  | .scion => 0 ≤ r.total ∧ r.total ≤ 2 * count
  | .whiteWolf => 0 ≤ (r.faces.length : Int) - count ∧ r.faces.length - count ≤ r.total ∧ r.total ≤ r.faces.length

theorem total_mem {sides : Nat} (h : ∀ face ∈ r.faces, 1 ≤ face ∧ face ≤ sides) :
    r.faces.length * r.mode.leastScore ≤ r.total ∧ r.total ≤ r.faces.length * r.mode.greatestScore sides := by
  have hscores : ∀ score ∈ r.faces.map r.mode.score,
      r.mode.leastScore ≤ score ∧ score ≤ r.mode.greatestScore sides :=
    List.forall_mem_map.mpr fun face hface => Scoring.score_mem (h face hface)
  have hleast := List.card_nsmul_le_sum _ _ fun score hscore => (hscores score hscore).1
  have hgreatest := List.sum_le_card_nsmul _ _ fun score hscore => (hscores score hscore).2
  rw [List.length_map, nsmul_eq_mul, ← total_eq_sum] at hleast hgreatest
  exact ⟨hleast, hgreatest⟩

/-- No score is negative in White Wolf mode, and what adds a die is a success. -/
theorem added_le_total (h : r.mode = .whiteWolf) : (r.mode.added r.faces : Int) ≤ r.total := by
  obtain ⟨pool, mode, faces⟩ := r
  cases h
  induction faces with
  | nil => exact Int.le_refl 0
  | cons face faces ih =>
    rw [total_cons]
    simp only [Scoring.added_cons] at ih ⊢
    split
    · next hexplodes =>
      have hscore := Scoring.one_le_score_of_explodes hexplodes
      omega
    · have hscore : 0 ≤ Scoring.whiteWolf.score face := Scoring.score_nonneg (by decide) face
      omega

end Roll

section Rolls

variable {σ : Type} [DieSource σ] {p : Pool} {mode : Scoring} {s s' : σ} {r : Roll}

theorem Pool.RollsTo.within [LawfulDieSource σ] (h : p.RollsTo mode s r s') :
    r.Within p.clamped.count p.clamped.sides := by
  obtain ⟨-, rfl, hdrawn⟩ := h
  have hlength := hdrawn.length_eq
  have hmem := Roll.total_mem (hdrawn.mem_range p.one_le_clamped_sides)
  rw [Scoring.added_eq] at hlength
  unfold Roll.Within
  cases hmode : r.mode with
  | whiteWolf =>
    have hadded := Roll.added_le_total hmode
    rw [Scoring.added_eq, if_pos hmode] at hadded
    rw [if_pos hmode] at hlength
    simp only [hmode, Scoring.leastScore, Scoring.greatestScore] at hmem ⊢
    omega
  | sum | fate | scion =>
    rw [if_neg (by simp [hmode]), Nat.add_zero] at hlength
    simp only [hmode, hlength, Scoring.leastScore, Scoring.greatestScore] at hmem ⊢
    omega

/-- Unless tens explode, every roll comes to an end. -/
theorem Pool.exists_roll? (h : mode ≠ .whiteWolf) (p : Pool) (s : σ) : ∃ r s', p.roll? mode s = some (r, s') := by
  have hexplodes : ∀ face, mode.explodes face = false := by
    intro face
    rw [Bool.eq_false_iff, ne_eq, Scoring.explodes_iff]
    exact fun hface => h hface.1
  have hcount : p.clamped.count ∈ settled mode p.clamped.sides p.clamped.count s := by
    rw [settled_of_not_explodes fun _ face _ => hexplodes face]
    rfl
  obtain ⟨faces, s', hdrawn⟩ := exists_drawn_iff.mpr ⟨_, hcount⟩
  refine ⟨⟨p.clamped, mode, faces⟩, s', Pool.roll?_eq_some_iff.mpr ⟨⟨rfl, rfl, hdrawn⟩, ?_⟩⟩
  rw [hdrawn.length_eq, Scoring.added_eq, if_neg h]
  exact Nat.le_add_right _ _

end Rolls

section Lengths

variable {k : Nat} {n : Int} {term : List Char} {p : Pool} {r : Roll}

theorem length_intChars_of_nonneg (hn : 0 ≤ n) (hk : 0 < k) (h : n < 10 ^ k) : (intChars n).length ≤ k := by
  obtain ⟨m, rfl⟩ := Int.eq_ofNat_of_zero_le hn
  rw [intChars_natCast, Nat.length_toDigits_le_iff (by decide) hk]
  exact_mod_cast h

/-- A sign takes one more character. -/
theorem length_intChars_le (hk : 0 < k) (hlow : -10 ^ k < n) (hhigh : n < 10 ^ k) : (intChars n).length ≤ k + 1 := by
  cases n with
  | ofNat m =>
    have hlength := length_intChars_of_nonneg (Int.natCast_nonneg m) hk hhigh
    exact Nat.le_succ_of_le hlength
  | negSucc m =>
    have hdigits : m + 1 < 10 ^ k := by
      rw [Int.negSucc_eq] at hlow
      exact_mod_cast neg_lt_neg_iff.mp hlow
    rw [intChars, List.length_cons]
    exact Nat.succ_le_succ ((Nat.length_toDigits_le_iff (by decide) hk).mpr hdigits)

theorem ofDigitChars_lt {run : List Char} (h : ∀ c ∈ run, c.isDigit = true) (m : Nat) :
    Nat.ofDigitChars 10 run m < (m + 1) * 10 ^ run.length := by
  induction run generalizing m with
  | nil => simp
  | cons c run ih =>
    obtain ⟨hc, hrun⟩ := List.forall_mem_cons.mp h
    have hdigit : c.toNat - '0'.toNat < 10 := by
      have := isDigit_iff_toNat.mp hc
      have : '0'.toNat = 48 := rfl
      omega
    rw [Nat.ofDigitChars_cons, List.length_cons]
    calc Nat.ofDigitChars 10 run (10 * m + (c.toNat - '0'.toNat))
      _ < (10 * m + (c.toNat - '0'.toNat) + 1) * 10 ^ run.length := ih hrun _
      _ ≤ ((m + 1) * 10) * 10 ^ run.length := Nat.mul_le_mul_right _ (by omega)
      _ = (m + 1) * 10 ^ (run.length + 1) := by rw [Nat.pow_succ', Nat.mul_assoc]

theorem ofDigitChars_lt_pow {run : List Char} (h : ∀ c ∈ run, c.isDigit = true) :
    Nat.ofDigitChars 10 run 0 < 10 ^ run.length := by
  simpa using ofDigitChars_lt h 0

/-- Count and sides of a pool take no more digits than were written, whether they are clamped or not. -/
theorem Pool.Writing.exists_widths (h : p.Writing term) :
    ∃ width width', 0 < width ∧ term.length = width + width' + 1 ∧
      p.clamped.count < 10 ^ width ∧ p.clamped.sides < 10 ^ width' := by
  obtain @⟨count, sides, letter, hcount, hcounts, -, hsides, hsidess⟩ := h
  refine ⟨count.length, sides.length, List.length_pos_iff.mpr hcount, by simp [Nat.add_assoc], ?_, ?_⟩
  · exact (Nat.min_le_left ..).trans_lt (ofDigitChars_lt_pow hcounts)
  · apply Nat.max_lt.mpr
    exact ⟨Nat.one_lt_pow (List.length_pos_iff.mpr hsides).ne' (by decide),
      (Nat.min_le_left ..).trans_lt (ofDigitChars_lt_pow hsidess)⟩

/-- A total within its limits is not longer than what the pool was written with. -/
theorem length_intChars_total_le (hp : p.Writing term) (hr : r.Within p.clamped.count p.clamped.sides)
    (hmode : r.mode ≠ .whiteWolf) : (intChars r.total).length ≤ term.length := by
  obtain ⟨width, width', hwidth, hlength, hcount, hsides⟩ := hp.exists_widths
  have hcountLt : (p.clamped.count : Int) < 10 ^ width := by exact_mod_cast hcount
  rw [hlength]
  unfold Roll.Within at hr
  cases hr' : r.mode with
  | whiteWolf => exact absurd hr' hmode
  | sum =>
    simp only [hr'] at hr
    have hproduct : p.clamped.count * p.clamped.sides < 10 ^ (width + width') := by
      rw [Nat.pow_add]
      exact Nat.mul_lt_mul'' hcount hsides
    have htotal : (intChars r.total).length ≤ width + width' := by
      apply length_intChars_of_nonneg (by omega) (by omega)
      exact hr.2.trans_lt (by exact_mod_cast hproduct)
    exact Nat.le_succ_of_le htotal
  | fate =>
    simp only [hr'] at hr
    have htotal : (intChars r.total).length ≤ width + 1 := length_intChars_le hwidth (by omega) (by omega)
    omega
  | scion =>
    simp only [hr'] at hr
    have hdouble : (2 * p.clamped.count : Int) < 10 ^ (width + 1) := by
      rw [pow_succ]
      omega
    have htotal : (intChars r.total).length ≤ width + 1 :=
      length_intChars_of_nonneg hr.1 (Nat.succ_pos _) (hr.2.trans_lt hdouble)
    omega

theorem length_weave_le {gaps texts texts' : List (List Char)}
    (h : List.Forall₂ (fun text text' => text.length ≤ text'.length) texts texts') :
    (weave gaps texts).length ≤ (weave gaps texts').length := by
  induction gaps generalizing texts texts' with
  | nil => exact Nat.le_refl 0
  | cons gap gaps ih =>
    cases h with
    | nil => exact Nat.le_refl _
    | cons hfirst hothers =>
      have hrest := ih hothers
      simp only [weave, List.length_append]
      omega

/-- Six-sided dice take as many characters as a marker. -/
theorem length_expandFateMarkers (cs : List Char) : (expandFateMarkers cs).length = cs.length := by
  fun_induction expandFateMarkers cs with
  | case1 c c' cs _ ih => simp [ih]
  | case2 c c' cs _ ih => simp [ih]
  | case3 => rfl

theorem length_rolledText (cs : List Char) : (rolledText cs).length = cs.length := by
  unfold rolledText
  split
  · exact length_expandFateMarkers cs
  · rfl

end Lengths

theorem Arithmetic.position_le_of_evaluate {text : String} {e : Error} {n : Nat} (h : evaluate text = .error e)
    (hn : e.position = some n) : n ≤ text.length := by
  obtain ⟨-, rfl⟩ | hrefused | ⟨f, rfl⟩ := evaluate_eq_error h
  · cases hn
  · obtain ⟨⟨m, hm, hle⟩, -⟩ := hrefused.exists_position
    rw [hm] at hn
    cases hn
    rwa [String.length_toList] at hle
  · cases hn

namespace Query

variable {σ : Type} [DieSource σ] {evaluator : Evaluator} {cs : List Char} {mode : Scoring}
  {tray tray₁ tray' after : Tray σ}

omit [DieSource σ] in
/-- What one answer keeps, its copies keep. -/
theorem kept_repeatAnswer {R : Tray σ → Tray σ → Prop} (refl : ∀ tray, R tray tray)
    (trans : ∀ tray tray₁ tray', R tray tray₁ → R tray₁ tray' → R tray tray')
    {once : Tray σ → Except Failure (Result Roll) × Tray σ} (h : ∀ tray, R tray (once tray).2) (times : Nat)
    (done : List (Result Roll)) (tray : Tray σ) : R tray (repeatAnswer once times done tray).2 := by
  induction times generalizing done tray with
  | zero => exact refl tray
  | succ times ih =>
    have hfirst := h tray
    rw [repeatAnswer]
    split
    · next hr => rwa [hr] at hfirst
    · next r tray₁ hr =>
      rw [hr] at hfirst
      exact trans tray tray₁ _ hfirst (ih (r :: done) tray₁)

/-- What answers to the query behind the last mark keep, whatever comes of them, every answer keeps. -/
theorem kept_answerWithin {R : Tray σ → Tray σ → Prop} (refl : ∀ tray, R tray tray)
    (trans : ∀ tray tray₁ tray', R tray tray₁ → R tray₁ tray' → R tray tray')
    (h : ∀ tray, R tray (answerTerms evaluator (lastSegment cs) mode tray).2) (levels : Nat) (tray : Tray σ) :
    R tray (answerWithin evaluator levels cs mode tray).2 := by
  induction cs using markInduction generalizing levels tray with
  | plain cs hcs =>
    rw [lastSegment_of_none hcs] at h
    rw [answerWithin_of_none hcs]
    split
    · exact h tray
    · exact refl tray
  | marked cs times inner hcs ih =>
    cases levels with
    | zero =>
      rw [answerWithin_zero_of_some hcs]
      exact refl tray
    | succ levels =>
      rw [lastSegment_of_some hcs] at h
      have hall := kept_repeatAnswer refl trans (ih h levels) times [] tray
      rw [answerWithin_succ_of_some hcs]
      split
      · next hparts => rwa [hparts] at hall
      · next hparts => rwa [hparts] at hall

/-- What was evaluated on the way from one tray to another is not longer than a limit. -/
def TextsWithin (limit : Nat) (tray tray' : Tray σ) : Prop :=
  ∃ texts : List String, tray'.evaluated = tray.evaluated ++ texts ∧ ∀ text ∈ texts, text.length ≤ limit

omit [DieSource σ] in
theorem textsWithin_refl (limit : Nat) (tray : Tray σ) : TextsWithin limit tray tray :=
  ⟨[], Array.ext' (by simp), List.forall_mem_nil _⟩

omit [DieSource σ] in
theorem TextsWithin.trans {limit : Nat} (h : TextsWithin limit tray tray₁) (h' : TextsWithin limit tray₁ tray') :
    TextsWithin limit tray tray' := by
  obtain ⟨texts, hevaluated, hlengths⟩ := h
  obtain ⟨more, hevaluated', hlengths'⟩ := h'
  refine ⟨texts ++ more, ?_, List.forall_mem_append.mpr ⟨hlengths, hlengths'⟩⟩
  rw [hevaluated', hevaluated]
  exact Array.ext' (by simp)

variable [LawfulDieSource σ]

/-- Totals put in the place of their pools make no text longer. -/
theorem length_leafText_le {rolls : List Roll} (hmode : rolledMode cs mode ≠ .whiteWolf)
    (h : tray.rollAll (rolledMode cs mode) (leafPools cs) = (.ok rolls, after)) :
    (leafText cs rolls).length ≤ cs.length := by
  obtain ⟨found, rest, hfound, hcut⟩ := exists_matches (rolledText cs)
  have hlimits : ∀ r ∈ rolls, r.Within r.pool.count r.pool.sides ∧ r.mode ≠ .whiteWolf := by
    refine Tray.forall_of_rollAll h ?_
    intro p s r s' hr
    have hrolls := (Pool.roll?_eq_some_iff.mp hr).1
    rw [hrolls.pool, hrolls.scoring]
    exact ⟨hrolls.within, hmode⟩
  have hrolled := (List.forall₂_and_left _ _).mpr ⟨hlimits, (rolledFor_of_rollAll hfound h).flip⟩
  have htotals : List.Forall₂ (fun text term => text.length ≤ term.length)
      (rolls.map fun r => intChars r.total) (terms found) := by
    refine List.forall₂_map_left_iff.mpr (hrolled.imp ?_)
    rintro r term ⟨⟨hwithin, hwhite⟩, p, hp, hpool⟩
    rw [hpool] at hwithin
    exact length_intChars_total_le hp hwithin hwhite
  have hsplice := hcut.splice_eq (rolls.map Roll.total) (by rw [List.length_map]; simpa using htotals.length_eq)
  rw [leafText, String.length_ofList, hsplice, List.map_map]
  calc (weave (gaps found rest) (rolls.map (intChars ∘ Roll.total))).length
    _ ≤ (weave (gaps found rest) (terms found)).length := length_weave_le htotals
    _ = (rolledText cs).length := by rw [← hfound.eq_weave]
    _ = cs.length := length_rolledText cs

theorem textsWithin_answerTerms (evaluator : Evaluator) (hmode : rolledMode cs mode ≠ .whiteWolf) (tray : Tray σ) :
    TextsWithin cs.length tray (answerTerms evaluator cs mode tray).2 := by
  cases hrolls : tray.rollAll (rolledMode cs mode) (leafPools cs) with
  | mk outcome after =>
    cases outcome with
    | error e =>
      rw [answerTerms_of_rollAll_error hrolls]
      have hevaluated := Tray.evaluated_rollAll (rolledMode cs mode) (leafPools cs) tray
      rw [hrolls] at hevaluated
      exact ⟨[], by rw [hevaluated]; exact Array.ext' (by simp), List.forall_mem_nil _⟩
    | ok rolls =>
      rw [answerTerms_of_rollAll hrolls]
      refine ⟨[leafText cs rolls], ?_, List.forall_mem_singleton.mpr (length_leafText_le hmode hrolls)⟩
      rw [← Tray.evaluated_of_rollAll hrolls]
      exact Array.ext' (by simp)

/-- With faces that are on their dice, every total lies within the limits of its mode, however many draws its roll
takes, and a roll ends unless tens explode. In a query that is rolled in another mode, whatever comes of it, the texts
that are evaluated are no longer than the query behind its last mark, and neither is what was read up to the position
of an arithmetic error. -/
theorem answer_bounds :
    (∀ (p : Pool) (mode : Scoring) (s s' : σ) (r : Roll),
      (p.RollsTo mode s r s' → r.Within (min p.count 100) (max 1 (min p.sides 1000))) ∧
        (p.roll? mode s = some (r, s') → p.RollsTo mode s r s')) ∧
    (∀ (p : Pool) (mode : Scoring) (s : σ), mode ≠ .whiteWolf → ∃ r s', p.roll? mode s = some (r, s')) ∧
    ∀ (query : String) (mode : Scoring) (tray : Tray σ), rolledMode (lastSegment query.toList) mode ≠ .whiteWolf →
      (∀ evaluator : Evaluator, ∃ texts : List String,
        (answer evaluator query mode tray).2.evaluated = tray.evaluated ++ texts ∧
          ∀ text ∈ texts, text.length ≤ (lastSegment query.toList).length) ∧
      ∀ e n after, answer evaluate query mode tray = (.error (.arithmetic e), after) → e.position = some n →
        n ≤ (lastSegment query.toList).length := by
  refine ⟨fun p mode s s' r => ⟨fun h => h.within, fun h => (Pool.roll?_eq_some_iff.mp h).1⟩,
    fun p mode s h => p.exists_roll? h s, ?_⟩
  intro query mode tray hmode
  constructor
  · intro evaluator
    exact kept_answerWithin (textsWithin_refl _) (fun _ _ _ => TextsWithin.trans)
      (textsWithin_answerTerms evaluator hmode) maxRepetitions tray
  · intro e n after h hn
    obtain ⟨-, -, tray₁, -, -, hterms⟩ := answer_eq_error h
    rcases answerTerms_eq_error hterms with hrolls | ⟨-, rolls, tray₂, a, hrolls, hvalue, he, -⟩
    · obtain ⟨p, hp⟩ := Tray.rollAll_eq_error hrolls
      cases hp
    · cases he
      exact (position_le_of_evaluate hvalue hn).trans (length_leafText_le hmode hrolls)

/-- A ten that adds a die, and twice a pool with leading zeros and a sign behind which nothing stands. -/
theorem answer_bounds_leading_zeros :
    (∃ r s', Pool.roll? ⟨3, 10⟩ .whiteWolf (Script.ofList [10, 3, 8, 9]) = some (r, s') ∧ r.Within 3 10) ∧
      ∃ e after n, answer evaluate "2x03D009*" .sum (.ofDice (Script.always 9)) = (.error (.arithmetic e), after) ∧
        after.evaluated = #["27*"] ∧ e.position = some n ∧ n ≤ 7 := by
  obtain ⟨hrolls, -, hqueries⟩ := @answer_bounds Script _ _
  have hroll : Pool.roll? ⟨3, 10⟩ .whiteWolf (Script.ofList [10, 3, 8, 9]) =
      some (⟨⟨3, 10⟩, .whiteWolf, [10, 3, 8, 9]⟩, ⟨[], 9⟩) := by decide
  refine ⟨⟨_, _, hroll, (hrolls _ _ _ _ _).1 ((hrolls _ _ _ _ _).2 hroll)⟩, ?_⟩
  let tray := Tray.ofDice (Script.always 9)
  have hfailure : (match (answer evaluate "2x03D009*" .sum tray).1 with
      | .ok _ => none
      | .error e => some e) = some (.arithmetic ⟨.unexpectedToken .finish, some 3⟩) := by decide +kernel
  have htexts : (answer evaluate "2x03D009*" .sum tray).2.evaluated = #["27*"] := by decide +kernel
  have hmode : rolledMode (lastSegment "2x03D009*".toList) .sum ≠ .whiteWolf := by decide +kernel
  have hsegment : (lastSegment "2x03D009*".toList).length = 7 := by decide +kernel
  obtain ⟨-, hposition⟩ := hqueries "2x03D009*" .sum tray hmode
  cases h : answer evaluate "2x03D009*" .sum tray with
  | mk outcome after =>
    rw [h] at hfailure htexts
    cases outcome with
    | ok r => cases hfailure
    | error e =>
      cases hfailure
      have hle := hposition _ 3 after h rfl
      rw [hsegment] at hle
      exact ⟨_, after, 3, rfl, htexts, rfl, hle⟩

end Query

end Tabletop

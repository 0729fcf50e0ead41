import Tabletop.Proofs.DrawnDice
import Tabletop.Proofs.FateMarkers
import Tabletop.Proofs.Lines
import Tabletop.Proofs.Matches

/-!
The sides of Fate dice. A marker is written out into a die with six sides before pools are looked for, so digits that
stand right behind it become further digits of the sides. Main statement: in a query without other dice a die has as
many sides as these digits make of the six, and six if there are none.
-/

namespace Tabletop

theorem Pool.text_eq (p : Pool) : p.text = Nat.repr p.count ++ "d" ++ Nat.repr p.sides := by
  apply String.toList_injective
  simp [text, chars, Nat.toList_repr]

namespace Query

open Arithmetic

section Pools

variable {cs : List Char} {p : Pool}

theorem pools_text_cons (run : List Char) (ps : List Piece) : pools (.text run :: ps) = pools ps := rfl

theorem pools_dice_cons (run : List Char) (p : Pool) (ps : List Piece) : pools (.dice run p :: ps) = p :: pools ps := rfl

/-- A pool that is written in a text, in front of what is no digit. -/
def WrittenIn (p : Pool) (cs : List Char) : Prop :=
  ∃ (q : Pool) (front written back : List Char), cs = front ++ written ++ back ∧ q.Writing written ∧ p = q.clamped ∧
    ∀ c ∈ back.head?, Text.isDecimalDigit c = false

theorem WrittenIn.append_left (h : WrittenIn p cs) (run : List Char) : WrittenIn p (run ++ cs) := by
  obtain ⟨q, front, written, back, rfl, hq⟩ := h
  exact ⟨q, run ++ front, written, back, by simp, hq⟩

theorem writtenIn_of_mem_pools (h : p ∈ pools (pieces cs)) : WrittenIn p cs := by
  induction cs using pieces.induct with
  | case1 => simp [pieces, pools] at h
  | case2 c others written rest hterm ih =>
    obtain ⟨happend, -⟩ := append_of_leadingTerm? hterm
    have hwritten := isTerm_of_leadingTerm? hterm
    rw [pieces_of_leadingTerm? hterm] at h
    rw [← happend]
    cases hreadable : Match.isReadable ⟨[], written⟩ with
    | true =>
      obtain ⟨q, hq⟩ := hwritten.exists_writing (m := ⟨[], written⟩) hreadable
      have hpiece : termPiece written = .dice written q.clamped := by rw [termPiece, hq.ofText]
      rw [hpiece, pools_dice_cons] at h
      rcases List.mem_cons.mp h with rfl | h
      · obtain ⟨_, _, _, -, -, -, -, -, -, hrest⟩ := eq_append_of_leadingTerm? hterm
        exact ⟨q, [], written, rest, rfl, hq, rfl, hrest⟩
      · exact (ih h).append_left written
    | false =>
      have hpiece : termPiece written = .text written := hwritten.termPiece_eq_text (m := ⟨[], written⟩) hreadable
      rw [hpiece, pools_text_cons] at h
      exact (ih h).append_left written
  | case3 c others hterm digit ih =>
    rw [pieces_cons_of_none hterm, if_pos digit, pools_text_cons] at h
    have hwritten := (ih h).append_left (c :: others.takeWhile Text.isDecimalDigit)
    rwa [List.cons_append, List.takeWhile_append_dropWhile] at hwritten
  | case4 c others hterm digit ih =>
    rw [pieces_cons_of_none hterm, if_neg digit, pools_text_cons] at h
    exact (ih h).append_left [c]

end Pools

section Markers

variable {cs front back marker behind digits : List Char} {letter : Char} {p : Pool}

/-- Every letter of a die is that of a marker. -/
def OnlyFateDice (cs : List Char) : Prop :=
  ∀ front letter back, cs = front ++ letter :: back → isDieLetter letter = true →
    ∃ marker behind, letter :: back = marker ++ behind ∧ IsFateMarker marker

def onlyFateDice : List Char → Bool
  | [] => true
  | c :: cs => (!isDieLetter c || cs.head?.any isFateLetter) && onlyFateDice cs

/-- The digits right behind a marker, all of them. -/
def BehindMarker (cs digits : List Char) : Prop :=
  ∃ front marker behind, cs = front ++ marker ++ behind ∧ IsFateMarker marker ∧
    digits = behind.takeWhile Text.isDecimalDigit

theorem IsFateMarker.eq_cons (h : IsFateMarker marker) (hcs : letter :: back = marker ++ behind) :
    ∃ f, back = f :: behind ∧ isDieLetter letter = true ∧ isFateLetter f = true := by
  obtain @⟨d, f, hd, hf⟩ := h
  obtain ⟨rfl, rfl⟩ := List.cons.inj hcs
  exact ⟨f, rfl, hd, hf⟩

theorem OnlyFateDice.of_append (front : List Char) (h : OnlyFateDice (front ++ cs)) : OnlyFateDice cs := by
  intro before letter back hcs
  exact h (front ++ before) letter back (by rw [hcs, List.append_assoc])

theorem onlyFateDice_iff : onlyFateDice cs = true ↔ OnlyFateDice cs := by
  induction cs with
  | nil =>
    refine iff_of_true rfl fun front letter back hcs => ?_
    simp at hcs
  | cons c cs ih =>
    rw [onlyFateDice, Bool.and_eq_true, ih]
    constructor
    · rintro ⟨hc, hlater⟩ front letter back hcs hletter
      cases front with
      | nil =>
        obtain ⟨rfl, rfl⟩ := List.cons.inj hcs
        rw [hletter, Bool.not_true, Bool.false_or, Option.any_eq_true] at hc
        obtain ⟨f, hf, hfate⟩ := hc
        obtain ⟨behind, rfl⟩ := List.head?_eq_some_iff.mp hf
        exact ⟨[c, f], behind, rfl, .mk hletter hfate⟩
      | cons x front => exact hlater front letter back (List.cons.inj hcs).2 hletter
    · intro h
      refine ⟨?_, h.of_append [c]⟩
      cases hletter : isDieLetter c with
      | false => rfl
      | true =>
        obtain ⟨marker, behind, hmarked, hmarker⟩ := h [] c cs rfl hletter
        obtain ⟨f, rfl, -, hf⟩ := hmarker.eq_cons hmarked
        simpa using hf

instance (cs : List Char) : Decidable (OnlyFateDice cs) := decidable_of_iff _ onlyFateDice_iff

theorem BehindMarker.append_left (h : BehindMarker cs digits) (front : List Char) :
    BehindMarker (front ++ cs) digits := by
  obtain ⟨before, marker, behind, rfl, hmarker⟩ := h
  exact ⟨front ++ before, marker, behind, by simp, hmarker⟩

theorem takeWhile_expandFateMarkers (cs : List Char) :
    (expandFateMarkers cs).takeWhile Text.isDecimalDigit = cs.takeWhile Text.isDecimalDigit := by
  fun_induction expandFateMarkers cs with
  | case1 c c' cs hmarker ih =>
    obtain ⟨hletter, -⟩ := Bool.and_eq_true_iff.mp hmarker
    have hc := not_isDecimalDigit_of_isDieLetter hletter
    rw [List.takeWhile_cons_of_neg (by decide), List.takeWhile_cons_of_neg (by simp [hc])]
  | case2 c c' cs hmarker ih =>
    rw [List.takeWhile_cons, List.takeWhile_cons, ih]
  | case3 => rfl

/-- What stands behind a die that was written out are the six and the digits behind its marker. -/
theorem OnlyFateDice.behindMarker (h : OnlyFateDice cs) (hcs : expandFateMarkers cs = front ++ letter :: back)
    (hletter : isDieLetter letter = true) :
    ∃ digits, BehindMarker cs digits ∧ back.takeWhile Text.isDecimalDigit = '6' :: digits := by
  fun_induction expandFateMarkers cs generalizing front with
  | case1 c c' cs hmarker ih =>
    obtain ⟨hc, hc'⟩ := Bool.and_eq_true_iff.mp hmarker
    rcases front with _ | ⟨_, _ | ⟨_, front⟩⟩
    · obtain ⟨-, rfl⟩ := List.cons.inj hcs
      refine ⟨cs.takeWhile Text.isDecimalDigit, ⟨[], [c, c'], cs, rfl, .mk hc hc', rfl⟩, ?_⟩
      rw [List.takeWhile_cons_of_pos (by decide), takeWhile_expandFateMarkers]
    · obtain ⟨-, hsix⟩ := List.cons.inj hcs
      obtain ⟨rfl, -⟩ := List.cons.inj hsix
      cases hletter
    · obtain ⟨-, hrest⟩ := List.cons.inj hcs
      obtain ⟨-, hrest⟩ := List.cons.inj hrest
      obtain ⟨digits, hdigits, hback⟩ := ih (OnlyFateDice.of_append [c, c'] h) hrest
      exact ⟨digits, hdigits.append_left [c, c'], hback⟩
  | case2 c c' cs hmarker ih =>
    cases front with
    | nil =>
      obtain ⟨rfl, -⟩ := List.cons.inj hcs
      obtain ⟨marker, behind, hmarked, hin⟩ := h [] c (c' :: cs) rfl hletter
      obtain ⟨f, hback, hd, hf⟩ := hin.eq_cons hmarked
      obtain ⟨rfl, -⟩ := List.cons.inj hback
      exact absurd (Bool.and_eq_true_iff.mpr ⟨hd, hf⟩) hmarker
    | cons _ front =>
      obtain ⟨-, hrest⟩ := List.cons.inj hcs
      obtain ⟨digits, hdigits, hback⟩ := ih (OnlyFateDice.of_append [c] h) hrest
      exact ⟨digits, hdigits.append_left [c], hback⟩
  | case3 cs hshort =>
    obtain ⟨marker, behind, hmarked, hin⟩ := h front letter back hcs hletter
    obtain ⟨f, rfl, -⟩ := hin.eq_cons hmarked
    have hlength : 2 ≤ cs.length := by
      rw [hcs, List.length_append, List.length_cons, List.length_cons]
      omega
    obtain rfl | ⟨c, rfl⟩ := eq_nil_or_singleton hshort
    · exact absurd hlength (by decide)
    · exact absurd hlength (Nat.not_succ_le_self 1)

theorem le_ofDigitChars (digits : List Char) (n : Nat) : n ≤ Nat.ofDigitChars 10 digits n := by
  induction digits generalizing n with
  | nil => exact Nat.le_refl n
  | cons d digits ih =>
    rw [Nat.ofDigitChars_cons]
    exact Nat.le_trans (by omega) (ih _)

theorem ofDigitChars_six_cons (digits : List Char) :
    6 ≤ Nat.ofDigitChars 10 ('6' :: digits) 0 ∧ (digits ≠ [] → 60 ≤ Nat.ofDigitChars 10 ('6' :: digits) 0) := by
  have hsix : Nat.ofDigitChars 10 ('6' :: digits) 0 = Nat.ofDigitChars 10 digits 6 := rfl
  rw [hsix]
  refine ⟨le_ofDigitChars digits 6, fun hne => ?_⟩
  obtain ⟨d, digits, rfl⟩ := List.exists_cons_of_ne_nil hne
  rw [Nat.ofDigitChars_cons]
  exact Nat.le_trans (by omega) (le_ofDigitChars digits _)

/-- A text without other dice has its markers written out, also if it has none. -/
theorem rolledText_eq_expandFateMarkers (cs : List Char) : rolledText cs = expandFateMarkers cs := by
  unfold rolledText
  split
  · rfl
  · next hnone => exact (expandFateMarkers_of_not_hasFateMarker (Bool.eq_false_iff.mpr hnone)).symm

theorem BehindMarker.hasFateMarker (h : BehindMarker cs digits) : hasFateMarker cs = true := by
  obtain ⟨front, marker, behind, rfl, hmarker, -⟩ := h
  exact hasFateMarker_iff.mpr ⟨marker, hmarker, front, behind, rfl⟩

theorem OnlyFateDice.sides_of_mem_leafPools (h : OnlyFateDice cs) (hp : p ∈ leafPools cs) :
    ∃ digits, BehindMarker cs digits ∧ (∀ d ∈ digits, d.isDigit = true) ∧
      p.clamped.sides = min (Nat.ofDigitChars 10 ('6' :: digits) 0) 1000 := by
  rw [leafPools, rolledText_eq_expandFateMarkers] at hp
  obtain ⟨_, front, _, back, hcs, @⟨count, sides, letter, -, -, hletter, -, hsides⟩, rfl, hback⟩ :=
    writtenIn_of_mem_pools hp
  have hcs' : expandFateMarkers cs = (front ++ count) ++ letter :: (sides ++ back) := by
    rw [hcs]
    simp
  obtain ⟨digits, hdigits, hsix⟩ := h.behindMarker hcs' hletter
  have hrun : (sides ++ back).takeWhile Text.isDecimalDigit = sides :=
    (span_append back (fun d hd => Text.isDecimalDigit_of_isDigit (hsides d hd)) hback).1
  obtain rfl : sides = '6' :: digits := hrun.symm.trans hsix
  refine ⟨digits, hdigits, fun d hd => hsides d (List.mem_cons_of_mem _ hd), ?_⟩
  have hmax : Pool.maxSides = 1000 := rfl
  rw [Pool.clamped_clamped, Pool.clamped, hmax]
  have hle := (ofDigitChars_six_cons digits).1
  dsimp only
  omega

end Markers

section Answers

variable {σ : Type} [DieSource σ] {query : String}

/-- In a query in which every letter of a die is that of a marker, all dice are rolled in the Fate mode, whatever mode
was asked for and whatever comes of the answer. Such a die has six sides if no digits stand right behind its marker;
otherwise the number of its sides is written by the six and these digits, but for the limit of a die. The lines of a
result are those of the rolls, and each shows the pool that was rolled. -/
theorem answer_fate_dice (h : OnlyFateDice query.toList) (responder : Responder) (mode : Scoring) (tray : Tray σ) :
    ∃ rolls : List Roll, (responder.answer query mode tray).2.rolled = tray.rolled ++ rolls ∧
      DrawnFor tray.dice rolls (responder.answer query mode tray).2.dice ∧
      (∀ r ∈ rolls, r.mode = .fate ∧ ∃ digits, BehindMarker query.toList digits ∧ (∀ d ∈ digits, d.isDigit = true) ∧
        r.pool.sides = min (Nat.ofDigitChars 10 ('6' :: digits) 0) 1000 ∧ (r.pool.sides = 6 ↔ digits = [])) ∧
      ((∀ digits, BehindMarker query.toList digits → digits = []) → ∀ r ∈ rolls, r.pool.sides = 6) ∧
      ∀ result, (responder.answer query mode tray).1 = .ok result →
        result.leafEntries = rolls.map (Roll.line responder.markup) ∧
        ∀ r ∈ rolls, ∃ shown, r.line responder.markup =
          Nat.repr r.pool.count ++ "d" ++ Nat.repr r.pool.sides ++ ": " ++ shown := by
  obtain ⟨rolls, ⟨hrolled, hdrawn, heach⟩, hlisted⟩ := accounts_answer responder.evaluator query mode tray
  have hsides : ∀ r ∈ rolls, r.mode = .fate ∧ ∃ digits, BehindMarker query.toList digits ∧
      (∀ d ∈ digits, d.isDigit = true) ∧ r.pool.sides = min (Nat.ofDigitChars 10 ('6' :: digits) 0) 1000 ∧
      (r.pool.sides = 6 ↔ digits = []) := by
    intro r hr
    obtain ⟨hmode, p, hp, hpool⟩ := heach r hr
    obtain ⟨front, hfront⟩ := lastSegment_isSuffix query.toList
    rw [← hfront] at h ⊢
    obtain ⟨digits, hdigits, hascii, hclamped⟩ := h.of_append.sides_of_mem_leafPools hp
    rw [rolledMode, if_pos hdigits.hasFateMarker] at hmode
    rw [← hpool] at hclamped
    refine ⟨hmode, digits, hdigits.append_left front, hascii, hclamped, ?_, ?_⟩
    · intro hsix
      by_contra hne
      have hle := (ofDigitChars_six_cons digits).2 hne
      omega
    · rintro rfl
      rw [hclamped]
      rfl
  refine ⟨rolls, hrolled, hdrawn, hsides, ?_, ?_⟩
  · intro hnone r hr
    obtain ⟨-, digits, hdigits, -, -, hsix⟩ := hsides r hr
    exact hsix.mpr (hnone digits hdigits)
  · intro result hresult
    constructor
    · rw [Responder.answer] at hresult
      cases houtcome : (answer responder.evaluator query mode tray).1 with
      | error e =>
        simp only [houtcome] at hresult
        cases hresult
      | ok r =>
        simp only [houtcome] at hresult
        cases hresult
        rw [Result.leafEntries_map, hlisted r houtcome]
    · intro r hr
      refine ⟨" ".intercalate (r.faces.map (Roll.faceText responder.markup r.mode)) ++ " = " ++ intText r.total, ?_⟩
      rw [Roll.line, Pool.text_eq]
      simp only [String.append_assoc]

/-- The first die has six sides, and the other sixty-three. -/
theorem answer_fate_dice_two_markers :
    let responder : Responder := ⟨.plain, ⟨false, false⟩, evaluate⟩
    let tray : Tray (Recorded Script) := .ofDice ⟨.ofList [1, 62], []⟩
    OnlyFateDice "1dF+1DF3".toList ∧
      (responder.answer "1dF+1DF3" .whiteWolf tray).2.dice.asked = [6, 63] ∧
      ∃ rolls : List Roll, (responder.answer "1dF+1DF3" .whiteWolf tray).2.rolled = rolls.toArray ∧
        rolls.map (fun r => r.pool.sides) = [6, 63] ∧
        (∀ r ∈ rolls, r.mode = .fate ∧ ∃ digits, BehindMarker "1dF+1DF3".toList digits ∧
          r.pool.sides = min (Nat.ofDigitChars 10 ('6' :: digits) 0) 1000) := by
  intro responder tray
  have honly : OnlyFateDice "1dF+1DF3".toList := by decide
  obtain ⟨rolls, hrolled, -, hsides, -⟩ := answer_fate_dice honly responder .whiteWolf tray
  have hpools : (responder.answer "1dF+1DF3" .whiteWolf tray).2.rolled.toList.map (fun r => r.pool.sides) =
      [6, 63] := by decide +kernel
  rw [hrolled] at hpools
  refine ⟨honly, by decide +kernel, rolls, ?_, ?_, ?_⟩
  · rw [hrolled]
    exact Array.ext' (by simp [tray, Tray.ofDice])
  · simpa [tray, Tray.ofDice] using hpools
  · intro r hr
    obtain ⟨hmode, digits, hdigits, -, hclamped, -⟩ := hsides r hr
    exact ⟨hmode, digits, hdigits, hclamped⟩

/-- A zero behind the marker: a die with sixty sides is drawn and shown, where it was to have six. -/
theorem answer_fate_dice_sixty :
    let responder : Responder := ⟨.plain, ⟨false, false⟩, evaluate⟩
    let tray : Tray (Recorded Script) := .ofDice ⟨.ofList [9], []⟩
    OnlyFateDice "1dF0".toList ∧
      (responder.answer "1dF0" .sum tray).2.dice.asked = [60] ∧
      (responder.answer "1dF0" .sum tray).1.toOption.map Result.leafEntries = some ["1d60: [+] = 1"] ∧
      ¬((∀ sides ∈ (responder.answer "1dF0" .sum tray).2.dice.asked, sides = 6) ∧
        ∀ result, (responder.answer "1dF0" .sum tray).1 = .ok result →
          ∀ line ∈ result.leafEntries, ∃ count shown, line = Nat.repr count ++ "d6: " ++ shown) := by
  intro responder tray
  have hasked : (responder.answer "1dF0" .sum tray).2.dice.asked = [60] := by decide +kernel
  refine ⟨by decide, hasked, by decide +kernel, ?_⟩
  rintro ⟨hsix, -⟩
  rw [hasked] at hsix
  exact absurd (hsix 60 List.mem_cons_self) (by decide)

end Answers

end Query

end Tabletop

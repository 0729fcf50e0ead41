import Tabletop.Proofs.CaseInsensitive
import Tabletop.Proofs.LetterCase
import Tabletop.Proofs.Trimming

/-!
Texts that name pools. Lower-casing makes digits out of nothing but themselves, and the letter of a pool out of nothing
but the letter, so a text that reads as a pool when it is trimmed and in lower case was written as one to begin with.
Main statement: the texts that name a pool are the ways to write one between blanks, what they name is that pool within
its limits, however large the numbers, and the text of a pool within the limits names it.
-/

namespace Tabletop

open Arithmetic Query

namespace Text

variable {inWord : Bool} {c d : Char} {cs : List Char}

theorem isUntouched_digits : isUntouched [(0x30, 0x39)] = true := by decide +kernel

theorem isDigit_of_mem_lowerAt (h : d ∈ lowerAt inWord c cs) : d.isDigit = c.isDigit := by
  have hranges : ∀ x : Char, inRanges [(0x30, 0x39)] x = x.isDigit := by
    intro x
    rw [Bool.eq_iff_iff, isDigit_iff_toNat]
    simp [inRanges]
  rw [← hranges, ← hranges, inRanges_of_mem_lowerAt isUntouched_digits h]

/-- Besides the ASCII capitals nothing in the table becomes `d`. -/
theorem misses_d : (lowerCaseShifts.tail.all fun r => r.misses 0x64 0x64 1) = true := by decide +kernel

theorem eq_D_of_image? {r : CaseShift} (hr : r ∈ lowerCaseShifts) (h : r.image? c.toNat = some 'd'.toNat) :
    c = 'D' := by
  have htable : lowerCaseShifts = ⟨0x41, 0x5A, 1, 32⟩ :: lowerCaseShifts.tail := rfl
  rw [htable] at hr
  rcases List.mem_cons.mp hr with rfl | hr
  · obtain ⟨-, hshift⟩ := CaseShift.image?_eq_some.mp h
    have hshift : ((c.toNat : Int) + 32).toNat = 100 := hshift
    have hD : 'D'.toNat = 68 := rfl
    exact Char.toNat_inj.mp (by omega)
  · have hmisses := List.all_eq_true.mp misses_d r hr
    exact absurd ⟨Nat.le_refl _, Nat.le_refl _, Nat.mod_one _⟩ (CaseShift.not_of_misses hmisses h)

theorem isDieLetter_of_mem_lowerAt (h : d ∈ lowerAt inWord c cs) (hd : isDieLetter d = true) :
    isDieLetter c = true := by
  rcases isDieLetter_iff.mp hd with rfl | rfl
  · rcases lowerAt_cases inWord c cs with ⟨-, hsigma | hsigma⟩ | hlower
    · rw [hsigma] at h
      exact absurd h (by decide)
    · rw [hsigma] at h
      exact absurd h (by decide)
    · rw [hlower] at h
      rcases lowerChar_cases c with hsame | ⟨-, hdotted⟩ | ⟨r, hr, e, himage, hshifted⟩
      · rw [hsame, List.mem_singleton] at h
        rw [← h]
        rfl
      · rw [hdotted] at h
        exact absurd h (by decide)
      · rw [hshifted, List.mem_singleton] at h
        subst h
        rw [eq_D_of_image? hr himage]
        rfl
  · -- The capital is not in lower case.
    exact absurd (lowerChar_of_mem_lowerAt h) (by decide)

/-- A text that has only digits and letters of pools in lower case has no others itself. -/
theorem isDigit_or_isDieLetter_of_lowerFrom
    (h : ∀ d ∈ lowerFrom inWord cs, d.isDigit = true ∨ isDieLetter d = true) :
    ∀ c ∈ cs, c.isDigit = true ∨ isDieLetter c = true := by
  induction cs generalizing inWord with
  | nil => exact List.forall_mem_nil _
  | cons x cs ih =>
    rw [lowerFrom_cons, List.forall_mem_append] at h
    refine List.forall_mem_cons.mpr ⟨?_, ih h.2⟩
    obtain ⟨d, hd⟩ := List.exists_mem_of_ne_nil _ (lowerAt_ne_nil inWord x cs)
    rw [← isDigit_of_mem_lowerAt hd]
    exact (h.1 d hd).imp_right (isDieLetter_of_mem_lowerAt hd)

end Text

namespace Pool

variable {p q : Pool} {cs : List Char} {text : String}

theorem Writing.of_map_toLower (h : q.Writing (cs.map Char.toLower)) : q.Writing cs := by
  generalize hcs : cs.map Char.toLower = lowered at h
  obtain @⟨count, sides, letter, hcount, hcounts, hletter, hsides, hsidess⟩ := h
  obtain ⟨count', rest, rfl, rfl, hrest⟩ := List.map_eq_append_iff.mp hcs
  obtain ⟨letter', sides', rfl, rfl, rfl⟩ := List.map_eq_cons_iff.mp hrest
  have hdigits : ∀ run : List Char, (∀ c ∈ run.map Char.toLower, c.isDigit = true) → ∀ c ∈ run, c.isDigit = true :=
    fun run hrun c hc => (congrFun Text.isDigit_comp_toLower c).symm.trans (hrun _ (List.mem_map_of_mem hc))
  have hcounts' := hdigits count' hcounts
  have hsidess' := hdigits sides' hsidess
  rw [map_toLower_of_isDigit hcounts', map_toLower_of_isDigit hsidess'] at *
  exact .mk hcount hcounts' ((congrFun isDieLetter_comp_toLower letter').symm.trans hletter) hsides hsidess'

/-- A pool that is written in the lower case of a text is written in the text. -/
theorem Writing.of_lower (h : q.Writing (Text.lower cs)) : q.Writing cs := by
  have hchars := Text.isDigit_or_isDieLetter_of_lowerFrom h.isDigit_or_isDieLetter
  have hascii : ∀ c ∈ cs, c.toNat < 0x80 := by
    intro c hc
    have := toNat_of_isDigit_or_isDieLetter (hchars c hc)
    omega
  rw [Text.lower, Text.lowerFrom_of_ascii hascii] at h
  exact h.of_map_toLower

/-- A text names a pool exactly if it is a way to write one when it is trimmed. -/
theorem ofText_eq_ok_iff_writing :
    ofText text = .ok p ↔ ∃ q : Pool, q.Writing (Text.trim text.toList) ∧ p = q.clamped := by
  constructor
  · intro h
    obtain ⟨q, hq, rfl⟩ := exists_writing_lower h
    exact ⟨q, hq.of_lower, rfl⟩
  · rintro ⟨q, hq, rfl⟩
    have htrimmed := hq.ofText
    unfold ofText at htrimmed ⊢
    simp only [String.toList_ofList, Text.trim_of_trimmed (Text.trimmed_trim text.toList)] at htrimmed ⊢
    split at htrimmed
    · cases htrimmed
    · exact htrimmed

theorem writing_chars (p : Pool) : p.Writing p.chars := by
  have hletter : isDieLetter 'd' = true := rfl
  have hwriting := Writing.mk (@Nat.toDigits_ne_nil p.count 10) (fun _ => isDigit_of_mem_toDigits) hletter
    (@Nat.toDigits_ne_nil p.sides 10) (fun _ => isDigit_of_mem_toDigits)
  rwa [Nat.ofDigitChars_ten_toDigits, Nat.ofDigitChars_ten_toDigits] at hwriting

/-- The text of a pool names the pool within the limits that is rolled in its place. -/
theorem ofText_text (p : Pool) : ofText p.text = .ok p.clamped := p.writing_chars.ofText

theorem clamped_eq (q : Pool) : q.clamped = ⟨min q.count 100, min (max q.sides 1) 1000⟩ := by
  have hsides : max 1 (min q.sides 1000) = min (max q.sides 1) 1000 := by omega
  exact congrArg (Pool.mk (min q.count 100)) hsides

theorem Writing.trimmed (h : q.Writing cs) : Text.Trimmed cs where
  first := fun c hc => h.not_isBlank c (List.mem_of_mem_head? hc)
  last := fun c hc => h.not_isBlank c (List.mem_of_mem_getLast? hc)

/-- The texts of pools are read exactly. A text names a pool exactly if it is a way to write one between blanks, and it
names that pool within the limits, however long the runs of digits. A pool within the limits is named by its text, and
so is every pool that a text names. -/
theorem ofText_between_blanks :
    (∀ text p, ofText text = .ok p ↔ ∃ (q : Pool) (lead written trail : List Char),
      text.toList = lead ++ written ++ trail ∧ Blanks lead ∧ Blanks trail ∧ q.Writing written ∧
        p = ⟨min q.count 100, min (max q.sides 1) 1000⟩) ∧
    (∀ p : Pool, p.count ≤ 100 → 1 ≤ p.sides → p.sides ≤ 1000 → ofText p.text = .ok p) ∧
    ∀ text p, ofText text = .ok p → ofText p.text = .ok p := by
  refine ⟨fun text p => ?_, fun p hcount hsides hsides' => ?_, fun text p h => ?_⟩
  · rw [ofText_eq_ok_iff_writing]
    constructor
    · rintro ⟨q, hq, rfl⟩
      obtain ⟨lead, trail, htext, hlead, htrail⟩ := Text.eq_append_trim text.toList
      exact ⟨q, lead, _, trail, htext, hlead, htrail, hq, q.clamped_eq⟩
    · rintro ⟨q, lead, written, trail, htext, hlead, htrail, hq, rfl⟩
      refine ⟨q, ?_, q.clamped_eq.symm⟩
      rwa [htext, Text.trim_append hlead hq.trimmed htrail]
  · have hwithin : p.clamped = p := by
      rw [clamped_eq, Nat.min_eq_left hcount, Nat.max_eq_left hsides, Nat.min_eq_left hsides']
    rw [ofText_text, hwithin]
  · obtain ⟨q, -, rfl⟩ := ofText_eq_ok_iff_writing.mp h
    rw [ofText_text, clamped_clamped]

/-- Leading zeros, a capital, a wide blank and a number that fits into no word. -/
theorem ofText_between_blanks_long_digits :
    ofText "\u3000007D99999999999999999999 " = .ok ⟨7, 1000⟩ ∧ ofText (Pool.text ⟨7, 1000⟩) = .ok ⟨7, 1000⟩ ∧
      ofText (Pool.text ⟨0, 1⟩) = .ok ⟨0, 1⟩ := by
  obtain ⟨htexts, hpools, hnamed⟩ := ofText_between_blanks
  have hwriting := @Writing.mk "007".toList "99999999999999999999".toList 'D' (by decide)
    (List.all_eq_true.mp (by decide)) rfl (by decide) (List.all_eq_true.mp (by decide))
  have hlong : ofText "\u3000007D99999999999999999999 " = .ok ⟨7, 1000⟩ :=
    (htexts _ _).mpr ⟨_, ['\u3000'], _, [' '], by decide +kernel, by decide, by decide, hwriting, by decide +kernel⟩
  exact ⟨hlong, hnamed _ _ hlong, hpools ⟨0, 1⟩ (by decide) (by decide) (by decide)⟩

end Pool

end Tabletop

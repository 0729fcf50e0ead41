import Tabletop.Text.Blank
import Tabletop.Text.LowerCase

/-!
What lower-casing leaves alone. A character in lower case has no lower case other than itself, because no range of
the table shifts a code point to where another range begins. Blanks and exclamation marks are neither changed nor
made out of anything else. Main statements: a text in lower case consists of characters that stay as they are, and
it ends with a blank, or begins with a mark, exactly if the text does from which it was made.
-/

namespace Tabletop.Text

namespace CaseShift

/-- The least code point that the range is shifted to. -/
def lowest (r : CaseShift) : Nat := (r.first + r.shift).toNat

/-- The greatest one. -/
def highest (r : CaseShift) : Nat := (r.last + r.shift).toNat

/-- Nothing is shifted to a code point that every `step`-th from `first` to `last` is: what `r` shifts to lies
beside the range, or falls between its steps. -/
def misses (r : CaseShift) (first last step : Nat) : Bool :=
  Nat.blt r.highest first || Nat.blt last r.lowest ||
    (Nat.blt 0 r.lowest && (r.first == r.last || r.step % step == 0) && (r.lowest - first) % step != 0)

variable {r : CaseShift} {m n : Nat}

theorem image?_eq_some : r.image? m = some n ↔
    (r.first ≤ m ∧ m ≤ r.last ∧ (m - r.first) % r.step = 0) ∧ (m + r.shift).toNat = n := by
  unfold image?
  split <;> simp_all

theorem lowest_le (h : r.image? m = some n) : r.lowest ≤ n := by
  obtain ⟨⟨hfirst, -, -⟩, rfl⟩ := image?_eq_some.mp h
  unfold lowest
  omega

theorem le_highest (h : r.image? m = some n) : n ≤ r.highest := by
  obtain ⟨⟨-, hlast, -⟩, rfl⟩ := image?_eq_some.mp h
  unfold highest
  omega

theorem eq_lowest_add (h : r.image? m = some n) (hlowest : 0 < r.lowest) :
    n = r.lowest + (m - r.first) := by
  obtain ⟨⟨hfirst, -, -⟩, rfl⟩ := image?_eq_some.mp h
  unfold lowest at *
  omega

theorem not_of_misses {first last step : Nat} (h : r.misses first last step = true)
    (hn : r.image? m = some n) : ¬ (first ≤ n ∧ n ≤ last ∧ (n - first) % step = 0) := by
  rintro ⟨hfirst, hlast, hstep⟩
  have hle := lowest_le hn
  have hge := le_highest hn
  simp only [misses, Bool.or_eq_true, Bool.and_eq_true, Nat.blt_eq, beq_iff_eq, bne_iff_ne] at h
  rcases h with (habove | hbelow) | ⟨⟨hlowest, hsteps⟩, hbetween⟩
  · omega
  · omega
  · have hoff : step ∣ m - r.first := by
      obtain ⟨⟨hm, hm', hmstep⟩, -⟩ := image?_eq_some.mp hn
      rcases hsteps with hsingle | hsteps
      · rw [show m - r.first = 0 by omega]
        exact Nat.dvd_zero step
      · exact Nat.dvd_trans (Nat.dvd_of_mod_eq_zero hsteps) (Nat.dvd_of_mod_eq_zero hmstep)
    have hlt : first < r.lowest := by
      refine Nat.lt_of_not_le fun hle => hbetween ?_
      rw [Nat.sub_eq_zero_of_le hle, Nat.zero_mod]
    have hsum : n - first = r.lowest - first + (m - r.first) := by
      have := eq_lowest_add hn hlowest
      omega
    have hn := Nat.dvd_of_mod_eq_zero hstep
    rw [hsum, Nat.dvd_add_left hoff] at hn
    exact hbetween (Nat.mod_eq_zero_of_dvd hn)

end CaseShift

section Table

variable {r : CaseShift} {c d : Char} {n : Nat}

/-- Where a range ends up: its code points are characters, none of them the capital I with a dot. -/
def CaseShift.isSound (r : CaseShift) : Bool :=
  (Nat.blt r.highest 0xD800 || Nat.blt 0xDFFF r.lowest && Nat.blt r.highest 0x110000) &&
    r.misses 0x130 0x130 1

/-- A list in `n` blocks of one size and a last block. -/
def blocks {α : Type} (size : Nat) : (n : Nat) → List α → List (List α)
  | 0, l => [l]
  | n + 1, l => l.take size :: blocks size n (l.drop size)

theorem flatten_blocks {α : Type} (size n : Nat) (l : List α) : (blocks size n l).flatten = l := by
  induction n generalizing l with
  | zero => exact List.append_nil l
  | succ n ih => rw [blocks, List.flatten_cons, ih, List.take_append_drop]

/-- The least and the greatest code point that ranges begin and end with. -/
def hull (block : List CaseShift) : Nat × Nat :=
  block.foldr (fun s ends => (min s.first ends.1, max s.last ends.2)) (0x110000, 0)

theorem mem_hull {s : CaseShift} {block : List CaseShift} (h : s ∈ block) :
    (hull block).1 ≤ s.first ∧ s.last ≤ (hull block).2 := by
  induction block with
  | nil => cases h
  | cons e block ih =>
    rw [hull, List.foldr_cons]
    rcases List.mem_cons.mp h with rfl | h
    · exact ⟨Nat.min_le_left .., Nat.le_max_left ..⟩
    · exact ⟨Nat.le_trans (Nat.min_le_right ..) (ih h).1, Nat.le_trans (ih h).2 (Nat.le_max_right ..)⟩

/-- Nothing is shifted to where a range of the block begins; most blocks lie elsewhere as a whole. -/
def CaseShift.missesBlock (r : CaseShift) (block : List CaseShift) : Bool :=
  r.misses (hull block).1 (hull block).2 1 || block.all fun s => r.misses s.first s.last s.step

theorem CaseShift.not_of_missesBlock {s : CaseShift} {m : Nat} {block : List CaseShift}
    (h : r.missesBlock block = true) (hs : s ∈ block) (hn : r.image? m = some n) :
    ¬ (s.first ≤ n ∧ n ≤ s.last ∧ (n - s.first) % s.step = 0) := by
  rw [missesBlock, Bool.or_eq_true] at h
  rcases h with hblock | heach
  · rintro ⟨hfirst, hlast, -⟩
    obtain ⟨hleast, hgreatest⟩ := mem_hull hs
    exact not_of_misses hblock hn
      ⟨Nat.le_trans hleast hfirst, Nat.le_trans hlast hgreatest, Nat.mod_one _⟩
  · exact not_of_misses (List.all_eq_true.mp heach s hs) hn

-- Any partition of the table would do. With some dozen blocks of as many ranges few pairs of ranges are compared.
theorem lowerCaseShifts_checked : (lowerCaseShifts.all fun r =>
    r.isSound && (blocks 16 11 lowerCaseShifts).all r.missesBlock) = true := by decide +kernel

theorem isSound_of_mem (h : r ∈ lowerCaseShifts) : r.isSound = true := by
  have hchecked := List.all_eq_true.mp lowerCaseShifts_checked r h
  rw [Bool.and_eq_true] at hchecked
  exact hchecked.1

/-- No image of a range is shifted in its turn. -/
theorem image?_eq_none_of_image? {s : CaseShift} {m : Nat} (hr : r ∈ lowerCaseShifts)
    (hs : s ∈ lowerCaseShifts) (h : r.image? m = some n) : s.image? n = none := by
  have hchecked := List.all_eq_true.mp lowerCaseShifts_checked r hr
  rw [Bool.and_eq_true] at hchecked
  rw [← flatten_blocks 16 11 lowerCaseShifts] at hs
  obtain ⟨block, hblock, hs⟩ := List.mem_flatten.mp hs
  exact if_neg (CaseShift.not_of_missesBlock (List.all_eq_true.mp hchecked.2 block hblock) hs h)

theorem toNat_ofNat_of_image? {m : Nat} (hr : r ∈ lowerCaseShifts) (h : r.image? m = some n) :
    (Char.ofNat n).toNat = n := by
  have hle := CaseShift.lowest_le h
  have hge := CaseShift.le_highest h
  have hsound := isSound_of_mem hr
  simp only [CaseShift.isSound, Bool.and_eq_true, Bool.or_eq_true, Nat.blt_eq] at hsound
  have hvalid : n.isValidChar := by
    obtain ⟨hlow | ⟨hlow, hhigh⟩, -⟩ := hsound
    · exact .inl (by omega)
    · exact .inr ⟨by omega, by omega⟩
  rw [Char.ofNat, dif_pos hvalid]
  rfl

theorem toLower_cases (c : Char) : (¬ (0x41 ≤ c.toNat ∧ c.toNat ≤ 0x5A) ∧ c.toLower = c) ∨
    (0x41 ≤ c.toNat ∧ c.toNat ≤ 0x5A) ∧ c.toLower.toNat = c.toNat + 32 := by
  by_cases h : c.val ≥ 'A'.val ∧ c.val ≤ 'Z'.val
  · refine .inr ⟨⟨UInt32.le_iff_toNat_le.mp h.1, UInt32.le_iff_toNat_le.mp h.2⟩, ?_⟩
    have hle : c.val.toNat ≤ 0x5A := UInt32.le_iff_toNat_le.mp h.2
    have hshift : ('a'.val - 'A'.val).toNat = 32 := by decide
    calc c.toLower.toNat
      _ = (c.val + ('a'.val - 'A'.val)).toNat := congrArg Char.toNat (dif_pos h : c.toLower = ⟨_, _⟩)
      _ = (c.val.toNat + 32) % 2 ^ 32 := by rw [UInt32.toNat_add, hshift]
      _ = c.toNat + 32 := Nat.mod_eq_of_lt (by omega)
  · refine .inl ⟨fun hn => h ⟨UInt32.le_iff_toNat_le.mpr hn.1, UInt32.le_iff_toNat_le.mpr hn.2⟩, ?_⟩
    exact dif_neg h

/-- All that can become of a character. -/
theorem lowerChar_cases (c : Char) : lowerChar c = [c] ∨ (c = 'İ' ∧ lowerChar c = ['i', '\u0307']) ∨
    ∃ r ∈ lowerCaseShifts, ∃ d, r.image? c.toNat = some d.toNat ∧ lowerChar c = [d] := by
  unfold lowerChar
  split
  · next hascii =>
    rcases toLower_cases c with ⟨-, hsame⟩ | ⟨⟨hle, hge⟩, hlower⟩
    · exact .inl (by rw [hsame])
    · refine .inr (.inr ⟨⟨0x41, 0x5A, 1, 32⟩, List.mem_cons_self, c.toLower, ?_, rfl⟩)
      rw [CaseShift.image?_eq_some, hlower]
      exact ⟨⟨hle, hge, Nat.mod_one _⟩, rfl⟩
  · split
    · next hc => exact .inr (.inl ⟨hc, rfl⟩)
    · split
      · next n hn =>
        obtain ⟨r, hr, himage⟩ := List.exists_of_findSome?_eq_some hn
        exact .inr (.inr ⟨r, hr, Char.ofNat n, by rw [toNat_ofNat_of_image? hr himage, himage], rfl⟩)
      · exact .inl rfl

theorem lowerChar_of_image?_eq_none (hc : c ≠ 'İ') (h : ∀ r ∈ lowerCaseShifts, r.image? c.toNat = none) :
    lowerChar c = [c] := by
  rcases lowerChar_cases c with hsame | ⟨rfl, -⟩ | ⟨r, hr, d, himage, -⟩
  · exact hsame
  · exact absurd rfl hc
  · rw [h r hr] at himage
    cases himage

/-- The two characters that only exceptions lead to are in lower case; the third exception leads to the sigma that
the table leads to as well. -/
theorem lowerChar_exceptions :
    lowerChar '\u0307' = ['\u0307'] ∧ lowerChar 'ς' = ['ς'] ∧ lowerChar 'Σ' = ['σ'] := by decide +kernel

/-- What a character becomes has no other lower case. -/
theorem lowerChar_of_mem_lowerChar (h : d ∈ lowerChar c) : lowerChar d = [d] := by
  rcases lowerChar_cases c with hsame | ⟨-, hdotted⟩ | ⟨r, hr, e, himage, hshifted⟩
  · rw [hsame, List.mem_singleton] at h
    rw [h, hsame]
  · rw [hdotted] at h
    rcases List.mem_cons.mp h with rfl | h
    · decide
    · rw [List.mem_singleton.mp h]
      exact lowerChar_exceptions.1
  · rw [hshifted, List.mem_singleton] at h
    subst h
    refine lowerChar_of_image?_eq_none ?_ fun s hs => image?_eq_none_of_image? hr hs himage
    rintro rfl
    have hsound := isSound_of_mem hr
    rw [CaseShift.isSound, Bool.and_eq_true] at hsound
    exact CaseShift.not_of_misses hsound.2 himage (by decide)

/-- The characters with rules of their own, and what they become. -/
def exceptions : List Char := ['İ', 'i', '\u0307', 'Σ', 'σ', 'ς']

/-- What lower-casing leaves alone: no range of the table begins or ends up there, and no exception does. -/
def isUntouched (ranges : List (Nat × Nat)) : Bool :=
  (lowerCaseShifts.all fun r => ranges.all fun b =>
    (Nat.blt r.last b.1 || Nat.blt b.2 r.first) && r.misses b.1 b.2 1) &&
      exceptions.all fun c => !inRanges ranges c

variable {ranges : List (Nat × Nat)}

theorem inRanges_eq_false_iff :
    inRanges ranges c = false ↔ ∀ b ∈ ranges, ¬ (b.1 ≤ c.toNat ∧ c.toNat ≤ b.2) := by
  simp [inRanges]

theorem inRanges_of_mem_exceptions (hranges : isUntouched ranges = true) (h : c ∈ exceptions) :
    inRanges ranges c = false := by
  rw [isUntouched, Bool.and_eq_true] at hranges
  simpa using List.all_eq_true.mp hranges.2 c h

/-- A character that is left alone becomes one of its kind, and no other character does. -/
theorem inRanges_of_mem_lowerChar (hranges : isUntouched ranges = true) (h : d ∈ lowerChar c) :
    inRanges ranges d = inRanges ranges c := by
  rcases lowerChar_cases c with hsame | ⟨rfl, hdotted⟩ | ⟨r, hr, e, himage, hshifted⟩
  · rw [hsame, List.mem_singleton] at h
    rw [h]
  · rw [hdotted] at h
    have hd : d = 'i' ∨ d = '\u0307' := by simpa using h
    have hd : d ∈ exceptions := by
      rcases hd with rfl | rfl <;> simp [exceptions]
    rw [inRanges_of_mem_exceptions hranges hd, inRanges_of_mem_exceptions hranges (by simp [exceptions])]
  · rw [hshifted, List.mem_singleton] at h
    subst h
    have hbeside : ∀ b ∈ ranges, (r.last < b.1 ∨ b.2 < r.first) ∧ r.misses b.1 b.2 1 = true := by
      intro b hb
      rw [isUntouched, Bool.and_eq_true] at hranges
      have hall := List.all_eq_true.mp (List.all_eq_true.mp hranges.1 r hr) b hb
      simpa only [Bool.and_eq_true, Bool.or_eq_true, Nat.blt_eq] using hall
    have hsource : inRanges ranges c = false := by
      refine inRanges_eq_false_iff.mpr fun b hb => ?_
      obtain ⟨⟨hfirst, hlast, -⟩, -⟩ := CaseShift.image?_eq_some.mp himage
      have := (hbeside b hb).1
      omega
    have htarget : inRanges ranges d = false := by
      refine inRanges_eq_false_iff.mpr fun b hb hin => ?_
      exact CaseShift.not_of_misses (hbeside b hb).2 himage ⟨hin.1, hin.2, Nat.mod_one _⟩
    rw [hsource, htarget]

end Table

/-- The blanks, as ranges. -/
def blankRanges : List (Nat × Nat) := [(0x09, 0x0D), (0x20, 0x20), (0x85, 0x85), (0xA0, 0xA0), (0x1680, 0x1680),
  (0x2000, 0x200A), (0x2028, 0x2028), (0x2029, 0x2029), (0x202F, 0x202F), (0x205F, 0x205F), (0x3000, 0x3000)]

theorem inRanges_blankRanges (c : Char) : inRanges blankRanges c = isBlank c := by
  simp only [isBlank, inRanges, blankRanges, List.any_cons, List.any_nil, Bool.or_false]
  have hpoint : ∀ n : Nat, (decide (n ≤ c.toNat) && decide (c.toNat ≤ n)) = (c.toNat == n) := by
    intro n
    rw [← Bool.decide_and, Bool.beq_eq_decide_eq]
    exact decide_eq_decide.mpr (by omega)
  simp only [hpoint, Bool.or_assoc]

theorem isUntouched_blanks_mark : isUntouched blankRanges = true ∧ isUntouched [(0x21, 0x21)] = true := by
  decide +kernel

section Texts

variable {inWord : Bool} {c d : Char} {cs : List Char} {ranges : List (Nat × Nat)}

/-- What a character becomes before the others, behind a text as for `lowerFrom`. -/
def lowerAt (inWord : Bool) (c : Char) (cs : List Char) : List Char :=
  if c = 'Σ' then [if inWord && !continuesWord cs then 'ς' else 'σ'] else lowerChar c

theorem lowerFrom_cons (inWord : Bool) (c : Char) (cs : List Char) : lowerFrom inWord (c :: cs) =
    lowerAt inWord c cs ++ lowerFrom (if isCaseIgnorable c then inWord else isCased c) cs := rfl

theorem lowerAt_cases (inWord : Bool) (c : Char) (cs : List Char) :
    (c = 'Σ' ∧ (lowerAt inWord c cs = ['σ'] ∨ lowerAt inWord c cs = ['ς'])) ∨
      lowerAt inWord c cs = lowerChar c := by
  unfold lowerAt
  split
  · next hc =>
    refine .inl ⟨hc, ?_⟩
    split
    · exact .inr rfl
    · exact .inl rfl
  · exact .inr rfl

/-- All of what a character becomes stays as it is. -/
theorem lowerChar_of_mem_lowerAt (h : d ∈ lowerAt inWord c cs) : lowerChar d = [d] := by
  rcases lowerAt_cases inWord c cs with ⟨-, hsigma | hsigma⟩ | hlower
  · rw [hsigma, List.mem_singleton] at h
    refine lowerChar_of_mem_lowerChar (c := 'Σ') ?_
    rw [lowerChar_exceptions.2.2, h]
    exact List.mem_cons_self
  · rw [hsigma, List.mem_singleton] at h
    rw [h]
    exact lowerChar_exceptions.2.1
  · rw [hlower] at h
    exact lowerChar_of_mem_lowerChar h

theorem inRanges_of_mem_lowerAt (hranges : isUntouched ranges = true) (h : d ∈ lowerAt inWord c cs) :
    inRanges ranges d = inRanges ranges c := by
  have hnone : ∀ e ∈ exceptions, inRanges ranges e = false := fun _ he =>
    inRanges_of_mem_exceptions hranges he
  rcases lowerAt_cases inWord c cs with ⟨rfl, hsigma | hsigma⟩ | hlower
  · rw [hsigma, List.mem_singleton] at h
    rw [h, hnone 'σ' (by simp [exceptions]), hnone 'Σ' (by simp [exceptions])]
  · rw [hsigma, List.mem_singleton] at h
    rw [h, hnone 'ς' (by simp [exceptions]), hnone 'Σ' (by simp [exceptions])]
  · rw [hlower] at h
    exact inRanges_of_mem_lowerChar hranges h

theorem lowerAt_ne_nil (inWord : Bool) (c : Char) (cs : List Char) : lowerAt inWord c cs ≠ [] := by
  rcases lowerAt_cases inWord c cs with ⟨-, hsigma | hsigma⟩ | hlower
  · simp [hsigma]
  · simp [hsigma]
  · rcases lowerChar_cases c with hsame | ⟨-, hdotted⟩ | ⟨r, -, d, -, hshifted⟩ <;> simp [*]

theorem lowerFrom_ne_nil (inWord : Bool) (c : Char) (cs : List Char) : lowerFrom inWord (c :: cs) ≠ [] := by
  rw [lowerFrom_cons]
  exact List.append_ne_nil_of_left_ne_nil (lowerAt_ne_nil inWord c cs) _

/-- Nothing is left to do to a text in lower case. -/
theorem lowerChar_of_mem_lowerFrom (h : d ∈ lowerFrom inWord cs) : lowerChar d = [d] := by
  induction cs generalizing inWord with
  | nil => cases h
  | cons c cs ih =>
    rw [lowerFrom_cons] at h
    rcases List.mem_append.mp h with h | h
    · exact lowerChar_of_mem_lowerAt h
    · exact ih h

theorem lowerFrom_of_lowerChar (h : ∀ c ∈ cs, lowerChar c = [c]) : lowerFrom inWord cs = cs := by
  induction cs generalizing inWord with
  | nil => rfl
  | cons c cs ih =>
    have hc := h c List.mem_cons_self
    have hsigma : c ≠ 'Σ' := by
      rintro rfl
      rw [lowerChar_exceptions.2.2] at hc
      exact absurd hc (by decide)
    rw [lowerFrom_cons, lowerAt, if_neg hsigma, hc, ih fun d hd => h d (List.mem_cons_of_mem c hd),
      List.singleton_append]

theorem inRanges_head?_lowerFrom (hranges : isUntouched ranges = true) (inWord : Bool) (cs : List Char) :
    (lowerFrom inWord cs).head?.map (inRanges ranges) = cs.head?.map (inRanges ranges) := by
  cases cs with
  | nil => rfl
  | cons c cs =>
    obtain ⟨d, ds, himage⟩ := List.exists_cons_of_ne_nil (lowerAt_ne_nil inWord c cs)
    have hd := inRanges_of_mem_lowerAt hranges (himage ▸ List.mem_cons_self : d ∈ lowerAt inWord c cs)
    rw [lowerFrom_cons, himage, List.cons_append, List.head?_cons, List.head?_cons, Option.map_some,
      Option.map_some, hd]

theorem inRanges_getLast?_lowerFrom (hranges : isUntouched ranges = true) (inWord : Bool) (cs : List Char) :
    (lowerFrom inWord cs).getLast?.map (inRanges ranges) = cs.getLast?.map (inRanges ranges) := by
  induction cs generalizing inWord with
  | nil => rfl
  | cons c cs ih =>
    rw [lowerFrom_cons]
    cases cs with
    | nil =>
      have hlast := List.getLast_mem (lowerAt_ne_nil inWord c [])
      rw [lowerFrom, List.append_nil, List.getLast?_eq_some_getLast (lowerAt_ne_nil inWord c []),
        Option.map_some, inRanges_of_mem_lowerAt hranges hlast]
      rfl
    | cons e es =>
      have hrest := ih (if isCaseIgnorable c then inWord else isCased c)
      rw [List.getLast?_eq_some_getLast (lowerFrom_ne_nil _ e es)] at hrest
      rw [List.getLast?_append, List.getLast?_eq_some_getLast (lowerFrom_ne_nil _ e es), Option.some_or,
        hrest, List.getLast?_cons_cons]

/-- A text in lower case ends with a blank exactly if the text does from which it was made. -/
theorem isBlank_getLast?_lower (cs : List Char) :
    (lower cs).getLast?.map isBlank = cs.getLast?.map isBlank := by
  have h := inRanges_getLast?_lowerFrom isUntouched_blanks_mark.1 false cs
  rwa [funext inRanges_blankRanges] at h

/-- It begins with an exclamation mark exactly if the text does. -/
theorem isMark_head?_lower (cs : List Char) :
    (lower cs).head?.map (· == '!') = cs.head?.map (· == '!') := by
  have h := inRanges_head?_lowerFrom isUntouched_blanks_mark.2 false cs
  have hmark : inRanges [(0x21, 0x21)] = (· == '!') := by
    funext c
    rw [inRanges, List.any_cons, List.any_nil, Bool.or_false, ← Bool.decide_and, Bool.beq_eq_decide_eq]
    refine decide_eq_decide.mpr ⟨fun hc => ?_, ?_⟩
    · exact Char.toNat_inj.mp (by have : '!'.toNat = 0x21 := rfl; omega)
    · rintro rfl
      exact ⟨Nat.le_refl _, Nat.le_refl _⟩
  rwa [hmark] at h

end Texts

end Tabletop.Text

import Tabletop.Proofs.Spelling
import Tabletop.Query.Pieces
import Tabletop.Query.Repetition

/-!
Cutting a text into pieces, from what stands at its front. A run of characters is plain in front of a text
when it is cut into text alone and the cutting begins anew behind it; a written pool is one piece, whatever
comes behind it, as long as that is no digit. The pieces of a longer text follow by putting runs together.
-/

namespace Tabletop

namespace Text

theorem lowerFrom_of_ascii {cs : List Char} (h : ∀ c ∈ cs, c.toNat < 0x80) (inWord : Bool) :
    lowerFrom inWord cs = cs.map Char.toLower := by
  induction cs generalizing inWord with
  | nil => rfl
  | cons c cs ih =>
    have hc := h c List.mem_cons_self
    have hsigma : c ≠ 'Σ' := by
      rintro rfl
      exact absurd hc (by decide)
    rw [lowerFrom, ih fun x hx => h x (List.mem_cons_of_mem c hx)]
    simp only [if_neg hsigma, lowerChar_ascii hc, List.singleton_append, List.map_cons]

theorem trim_of_not_blank {cs : List Char} (h : ∀ c ∈ cs, isBlank c = false) : trim cs = cs := by
  have hdrop : ∀ ds : List Char, (∀ c ∈ ds, isBlank c = false) → ds.dropWhile isBlank = ds := by
    intro ds hds
    cases ds with
    | nil => rfl
    | cons d ds => simp [hds d List.mem_cons_self]
  rw [trim, trimLeft, hdrop cs h, trimRight, hdrop _ fun c hc => h c (List.mem_reverse.mp hc),
    List.reverse_reverse]

end Text

open Query Arithmetic

/-- The ways to write a pool: ASCII digits, the letter in either case, ASCII digits. -/
inductive Pool.Writing : Pool → List Char → Prop
  | mk {count sides : List Char} {letter : Char} :
      count ≠ [] → (∀ c ∈ count, c.isDigit = true) → isDieLetter letter = true →
      sides ≠ [] → (∀ c ∈ sides, c.isDigit = true) →
      Writing ⟨Nat.ofDigitChars 10 count 0, Nat.ofDigitChars 10 sides 0⟩ (count ++ letter :: sides)

theorem isDieLetter_iff {c : Char} : isDieLetter c = true ↔ c = 'd' ∨ c = 'D' := by
  simp [isDieLetter]

theorem toLower_of_isDigit {c : Char} (h : c.isDigit = true) : c.toLower = c := by
  have hupper : ¬(c.val ≥ 'A'.val ∧ c.val ≤ 'Z'.val) := by
    rw [isDigit_iff_toNat, ← Char.toNat_val] at h
    simp only [ge_iff_le, UInt32.le_iff_toNat_le]
    have : 'A'.val.toNat = 65 := rfl
    omega
  exact dif_neg hupper

theorem map_toLower_of_isDigit {run : List Char} (h : ∀ c ∈ run, c.isDigit = true) : run.map Char.toLower = run :=
  (List.map_congr_left fun c hc => toLower_of_isDigit (h c hc)).trans (List.map_id run)

/-- Where the characters of written pools are found. -/
theorem toNat_of_isDigit_or_isDieLetter {c : Char} (h : c.isDigit = true ∨ isDieLetter c = true) :
    48 ≤ c.toNat ∧ c.toNat ≤ 100 := by
  rcases h with hdigit | hletter
  · have := isDigit_iff_toNat.mp hdigit
    omega
  · rcases isDieLetter_iff.mp hletter with rfl | rfl <;> decide

theorem Pool.Writing.isDigit_or_isDieLetter {p : Pool} {cs : List Char} (h : p.Writing cs) :
    ∀ c ∈ cs, c.isDigit = true ∨ isDieLetter c = true := by
  obtain ⟨-, hcounts, hletter, -, hsidess⟩ := h
  rw [List.forall_mem_append, List.forall_mem_cons]
  exact ⟨fun c hc => .inl (hcounts c hc), .inr hletter, fun c hc => .inl (hsidess c hc)⟩

theorem Pool.Writing.toNat_mem {p : Pool} {cs : List Char} (h : p.Writing cs) :
    ∀ c ∈ cs, 48 ≤ c.toNat ∧ c.toNat ≤ 100 :=
  fun c hc => toNat_of_isDigit_or_isDieLetter (h.isDigit_or_isDieLetter c hc)

theorem Pool.Writing.not_isBlank {p : Pool} {cs : List Char} (h : p.Writing cs) :
    ∀ c ∈ cs, Text.isBlank c = false := by
  intro c hc
  have := h.toNat_mem c hc
  exact not_isBlank_of_visible (by omega)

theorem Pool.Writing.ofText {p : Pool} {cs : List Char} (h : p.Writing cs) :
    Pool.ofText (String.ofList cs) = .ok p.clamped := by
  have hascii : ∀ c ∈ cs, c.toNat < 0x80 := fun c hc => by have := h.toNat_mem c hc; omega
  have htrim : Text.trim cs = cs := Text.trim_of_not_blank h.not_isBlank
  obtain ⟨hcount, hcounts, hletter, hsides, hsidess⟩ := h
  rename_i count sides letter
  have hlower : letter.toLower = 'd' := by rcases isDieLetter_iff.mp hletter with rfl | rfl <;> rfl
  have htext : Text.lower (Text.trim (count ++ letter :: sides)) = count ++ 'd' :: sides := by
    rw [htrim, Text.lower, Text.lowerFrom_of_ascii hascii, List.map_append, List.map_cons, hlower,
      map_toLower_of_isDigit hcounts, map_toLower_of_isDigit hsidess]
  have hne : ∀ c ∈ count, (c != 'd') = true := by
    intro c hc
    have := isDigit_iff_toNat.mp (hcounts c hc)
    exact bne_iff_ne.mpr (by rintro rfl; revert this; decide)
  obtain ⟨htake, hdrop⟩ := span_append ('d' :: sides) hne (by simp)
  simp only [Pool.ofText, String.toList_ofList, htext, htake, hdrop]
  simp only [number?, List.all_eq_true]
  rw [if_pos ⟨hcount, hcounts⟩, if_pos ⟨hsides, hsidess⟩]
  exact congrArg Except.ok (clamped_min_maxNumber _ _)

theorem Pool.number?_eq_some {n : Nat} {cs : List Char} (h : number? cs = some n) :
    cs ≠ [] ∧ (∀ c ∈ cs, c.isDigit = true) ∧ n = min (Nat.ofDigitChars 10 cs 0) maxNumber := by
  unfold number? at h
  split at h
  · next hdigits => exact ⟨hdigits.1, List.all_eq_true.mp hdigits.2, (Option.some.inj h).symm⟩
  · cases h

/-- A text that names a pool is a way to write one when it is trimmed and in lower case. -/
theorem Pool.exists_writing_lower {text : String} {p : Pool} (h : ofText text = .ok p) :
    ∃ q : Pool, q.Writing (Text.lower (Text.trim text.toList)) ∧ p = q.clamped := by
  unfold ofText at h
  simp only at h
  generalize Text.lower (Text.trim text.toList) = cs at h ⊢
  split at h
  · cases h
  · next letter after hdrop =>
    split at h
    · cases h
    · cases h
    · next count sides hbefore hafter =>
      obtain ⟨hcount, hcounts, rfl⟩ := number?_eq_some hbefore
      obtain ⟨hsides, hsidess, rfl⟩ := number?_eq_some hafter
      have hletter : letter = 'd' := by
        have := List.head?_dropWhile_not (· != 'd') cs
        simpa [hdrop] using this
      rw [← List.takeWhile_append_dropWhile (p := (· != 'd')) (l := cs), hdrop, hletter]
      exact ⟨_, .mk hcount hcounts rfl hsides hsidess, (Except.ok.inj h).symm.trans (clamped_min_maxNumber _ _)⟩

section Characters

variable {c : Char}

/-- Where decimal digits are found; no blank and no mark lies in these stretches. -/
theorem toNat_of_isDecimalDigit (h : Text.isDecimalDigit c = true) :
    (48 ≤ c.toNat ∧ c.toNat ≤ 57) ∨ (0x660 ≤ c.toNat ∧ c.toNat ≤ 0x1099) ∨
      (0x17E0 ≤ c.toNat ∧ c.toNat ≤ 0x1C59) ∨ 0xA620 ≤ c.toNat := by
  have hranges : ∀ r ∈ Text.decimalDigitRanges, (48 ≤ r.1 ∧ r.2 ≤ 57) ∨ (0x660 ≤ r.1 ∧ r.2 ≤ 0x1099) ∨
      (0x17E0 ≤ r.1 ∧ r.2 ≤ 0x1C59) ∨ 0xA620 ≤ r.1 := by decide
  simp only [Text.isDecimalDigit, Bool.or_eq_true, List.any_eq_true, Bool.and_eq_true,
    decide_eq_true_eq] at h
  rcases h with h | ⟨r, hr, hlow, hhigh⟩
  · exact .inl (isDigit_iff_toNat.mp h)
  · have := hranges r hr
    omega

theorem Arithmetic.IsSeparator.not_isDecimalDigit (h : IsSeparator c) :
    Text.isDecimalDigit c = false := by
  apply Bool.eq_false_iff.mpr
  intro hc
  have hzone := toNat_of_isDecimalDigit hc
  rcases h with h | h
  · simp only [Text.isBlank, Bool.or_eq_true, Bool.and_eq_true, decide_eq_true_eq, beq_iff_eq] at h
    omega
  · obtain ⟨t, ht⟩ := Option.isSome_iff_exists.mp h
    have := ofChar?_eq_some_toNat ht
    omega

theorem Arithmetic.IsSeparator.not_isDieLetter (h : IsSeparator c) : isDieLetter c = false := by
  apply Bool.eq_false_iff.mpr
  intro hc
  have halpha := h.not_isAlpha
  rcases isDieLetter_iff.mp hc with rfl | rfl <;> exact absurd halpha (by decide)

theorem not_isDecimalDigit_of_isAlpha (h : c.isAlpha = true) : Text.isDecimalDigit c = false := by
  apply Bool.eq_false_iff.mpr
  intro hc
  have hzone := toNat_of_isDecimalDigit hc
  rw [isAlpha_iff_toNat] at h
  omega

end Characters

namespace Query

variable {c : Char} {cs run : List Char}

theorem leadingTerm?_of_not_digit (h : Text.isDecimalDigit c = false) :
    leadingTerm? (c :: cs) = none := by
  simp [leadingTerm?, h]

theorem pieces_cons_of_not_digit (h : Text.isDecimalDigit c = false) :
    pieces (c :: cs) = .text [c] :: pieces cs := by
  rw [pieces_cons_of_none (leadingTerm?_of_not_digit h), if_neg (by simp [h])]

/-- Digits that make no pool are one piece of text. -/
theorem pieces_digits (hne : run ≠ []) (hrun : ∀ x ∈ run, Text.isDecimalDigit x = true)
    (hcs : ∀ x ∈ cs.head?, Text.isDecimalDigit x = false ∧ isDieLetter x = false) :
    pieces (run ++ cs) = .text run :: pieces cs := by
  obtain ⟨d, ds, rfl⟩ := List.exists_cons_of_ne_nil hne
  obtain ⟨htake, hdrop⟩ := span_append cs hrun fun x hx => (hcs x hx).1
  have hnone : leadingTerm? (d :: ds ++ cs) = none := by
    unfold leadingTerm?
    dsimp only
    rw [hdrop, htake]
    cases cs with
    | nil => rfl
    | cons x xs => simp [(hcs x rfl).2]
  obtain ⟨htake', hdrop'⟩ := span_append cs (fun x hx => hrun x (List.mem_cons_of_mem d hx))
    fun x hx => (hcs x hx).1
  rw [List.cons_append] at hnone ⊢
  rw [pieces_cons_of_none hnone, if_pos (hrun d List.mem_cons_self), htake', hdrop']

/-- A written pool is one piece. -/
theorem pieces_term {p : Pool} (h : p.Writing run) (hcs : ∀ x ∈ cs.head?, Text.isDecimalDigit x = false) :
    pieces (run ++ cs) = .dice run p.clamped :: pieces cs := by
  have hpiece : termPiece run = .dice run p.clamped := by simp only [termPiece, h.ofText]
  obtain @⟨count, sides, letter, hcount, hcounts, hletter, hsides, hsidess⟩ := h
  have hdie : Text.isDecimalDigit letter = false := by
    apply not_isDecimalDigit_of_isAlpha
    rcases isDieLetter_iff.mp hletter with rfl | rfl <;> rfl
  obtain ⟨htake, hdrop⟩ := span_append (letter :: (sides ++ cs))
    (fun x hx => Text.isDecimalDigit_of_isDigit (hcounts x hx)) (by simpa using hdie)
  obtain ⟨htake', hdrop'⟩ := span_append cs
    (fun x hx => Text.isDecimalDigit_of_isDigit (hsidess x hx)) hcs
  have hterm : leadingTerm? (count ++ letter :: sides ++ cs) = some (count ++ letter :: sides, cs) := by
    rw [List.append_assoc, List.cons_append]
    simp only [leadingTerm?, hdrop, htake, htake', hdrop']
    rw [if_pos ⟨hcount, hletter, hsides⟩]
  rw [pieces_of_leadingTerm? hterm, hpiece]

/-- In front of `cs` the run is cut into text alone, and the cutting begins anew behind it. -/
def Plain (run cs : List Char) : Prop :=
  ∃ ps, pieces (run ++ cs) = ps ++ pieces cs ∧ pools ps = [] ∧ ps.flatMap Piece.chars = run

theorem plain_nil : Plain [] cs := ⟨[], rfl, rfl, rfl⟩

theorem Plain.append {run' : List Char} (h : Plain run (run' ++ cs)) (h' : Plain run' cs) :
    Plain (run ++ run') cs := by
  obtain ⟨ps, hps, hpools, hchars⟩ := h
  obtain ⟨qs, hqs, hpools', hchars'⟩ := h'
  refine ⟨ps ++ qs, ?_, ?_, ?_⟩
  · rw [List.append_assoc, hps, hqs, List.append_assoc]
  · rw [pools, List.filterMap_append]
    exact List.append_eq_nil_iff.mpr ⟨hpools, hpools'⟩
  · rw [List.flatMap_append, hchars, hchars']

theorem plain_singleton (h : Text.isDecimalDigit c = false) : Plain [c] cs :=
  ⟨[.text [c]], pieces_cons_of_not_digit h, rfl, rfl⟩

theorem plain_of_not_digits (h : ∀ x ∈ run, Text.isDecimalDigit x = false) : Plain run cs := by
  induction run with
  | nil => exact plain_nil
  | cons x xs ih =>
    exact (plain_singleton (h x List.mem_cons_self)).append
      (ih fun y hy => h y (List.mem_cons_of_mem x hy))

theorem plain_digits (hne : run ≠ []) (hrun : ∀ x ∈ run, x.isDigit = true)
    (hcs : ∀ x ∈ cs.head?, Text.isDecimalDigit x = false ∧ isDieLetter x = false) : Plain run cs := by
  have hpieces := pieces_digits hne (fun x hx => Text.isDecimalDigit_of_isDigit (hrun x hx)) hcs
  exact ⟨[.text run], hpieces, rfl, by simp [Piece.chars]⟩

/-- A written number is plain when something stands behind it that no number goes on with. -/
theorem plain_of_parts (hrun : ∀ x ∈ run, Numeral.isPart x = true) (hcs : ∀ x ∈ cs.head?, IsSeparator x) :
    Plain run cs := by
  induction hn : run.length using Nat.strong_induction_on generalizing run with
  | _ n ih =>
    have hpoint : ∀ x ∈ run, x.isDigit = false → x = '.' := by
      intro x hx hdigit
      have hpart := hrun x hx
      simpa [Numeral.isPart, hdigit] using hpart
    cases run with
    | nil => exact plain_nil
    | cons x xs =>
      by_cases hx : x.isDigit = true
      · -- The digits in front, and behind them a point or the end of the number.
        have hsplit := List.takeWhile_append_dropWhile (p := Char.isDigit) (l := x :: xs)
        have hmem : ∀ y ∈ (x :: xs).dropWhile Char.isDigit, y ∈ x :: xs :=
          fun y hy => (List.dropWhile_sublist _).mem hy
        have hrest : Plain ((x :: xs).dropWhile Char.isDigit) cs := by
          refine ih _ ?_ (fun y hy => hrun y (hmem y hy)) rfl
          have hle := length_dropWhile_le Char.isDigit xs
          rw [List.dropWhile_cons_of_pos hx, ← hn, List.length_cons]
          omega
        have hdigits : Plain ((x :: xs).takeWhile Char.isDigit)
            ((x :: xs).dropWhile Char.isDigit ++ cs) := by
          refine plain_digits (by simp [hx]) (fun y hy => List.all_eq_true.mp List.all_takeWhile y hy) ?_
          intro y hy
          cases hdrop : (x :: xs).dropWhile Char.isDigit with
          | nil =>
            rw [hdrop] at hy
            exact ⟨(hcs y hy).not_isDecimalDigit, (hcs y hy).not_isDieLetter⟩
          | cons z zs =>
            have hz : z.isDigit = false := head?_dropWhile_eq_false z (by rw [hdrop]; rfl)
            rw [hdrop] at hy hmem
            cases hy
            rw [hpoint _ (hmem _ List.mem_cons_self) hz]
            exact ⟨by decide, by decide⟩
        rw [← hsplit]
        exact hdigits.append hrest
      · rw [hpoint x List.mem_cons_self (by simpa using hx)] at hrun hn ⊢
        refine (plain_singleton (by decide)).append (ih xs.length ?_ ?_ rfl)
        · rw [← hn, List.length_cons]
          omega
        · exact fun y hy => hrun y (List.mem_cons_of_mem _ hy)

theorem splice_append {ps qs : List Piece} (h : pools ps = []) (ts : List Int) :
    splice (ps ++ qs) ts = ps.flatMap Piece.chars ++ splice qs ts := by
  induction ps with
  | nil => rfl
  | cons p ps ih =>
    cases p with
    | text chars => simp [splice, Piece.chars, ih h]
    | dice chars pool => simp [pools, Piece.pool?] at h

theorem Plain.pools (h : Plain run cs) : pools (pieces (run ++ cs)) = pools (pieces cs) := by
  obtain ⟨ps, hps, hpools, -⟩ := h
  rw [hps, Query.pools, List.filterMap_append]
  rw [Query.pools] at hpools
  rw [hpools]
  rfl

theorem Plain.splice (h : Plain run cs) (ts : List Int) :
    splice (pieces (run ++ cs)) ts = run ++ splice (pieces cs) ts := by
  obtain ⟨ps, hps, hpools, hchars⟩ := h
  rw [hps, splice_append hpools, hchars]

theorem dieLetter_of_leadingTerm? {written rest : List Char}
    (h : leadingTerm? cs = some (written, rest)) : ∃ x ∈ cs, isDieLetter x = true := by
  unfold leadingTerm? at h
  split at h
  · cases h
  · next letter after hdrop =>
    dsimp only at h
    split at h
    · next hterm =>
      refine ⟨letter, ?_, hterm.2.1⟩
      exact (List.dropWhile_sublist Text.isDecimalDigit).mem (by rw [hdrop]; exact List.mem_cons_self)
    · cases h

/-- Only a text with the letter of a die names a pool. -/
theorem dieLetter_of_pools_ne_nil (h : pools (pieces cs) ≠ []) : ∃ x ∈ cs, isDieLetter x = true := by
  induction cs using pieces.induct with
  | case1 => simp [pieces, Query.pools] at h
  | case2 c others written rest hterm _ => exact dieLetter_of_leadingTerm? hterm
  | case3 c others hterm digit ih =>
    rw [pieces_cons_of_none hterm, if_pos digit] at h
    obtain ⟨x, hx, hletter⟩ := ih h
    exact ⟨x, List.mem_cons_of_mem c ((List.dropWhile_sublist _).mem hx), hletter⟩
  | case4 c others hterm digit ih =>
    rw [pieces_cons_of_none hterm, if_neg digit] at h
    obtain ⟨x, hx, hletter⟩ := ih h
    exact ⟨x, List.mem_cons_of_mem c hx, hletter⟩

theorem isWorthReading_of_dieLetter (h : ∃ x ∈ cs, isDieLetter x = true) : isWorthReading cs = true := by
  obtain ⟨x, hx, hletter⟩ := h
  refine List.any_eq_true.mpr ⟨x, hx, ?_⟩
  rcases isDieLetter_iff.mp hletter with rfl | rfl <;> rfl

theorem isWorthReading_of_pools_ne_nil (h : pools (pieces cs) ≠ []) : isWorthReading cs = true :=
  isWorthReading_of_dieLetter (dieLetter_of_pools_ne_nil h)

end Query

end Tabletop

import Tabletop.Proofs.Malformed

/-!
Pieces as blocks of a text. With totals in the place of its pools a query is a row of single characters and of runs
of digits, and no two of these runs touch. Main statement: what divides such a text, but does not part two digits,
divides the pieces as well; and where a pool stands among digits and at most one point, it stands there by itself or
beside the point, on whose other side there are digits, another pool or nothing.
-/

namespace Tabletop.Query

open Arithmetic

/-- `Blocks behind ps totals cs`: the pieces are written `cs` with the totals, which have no signs, in the place of
their pools. No two runs of digits touch; `behind` says whether one stands in front. -/
inductive Blocks : (behind : Bool) → List Piece → List Int → List Char → Prop
  | nil {behind : Bool} : Blocks behind [] [] []
  | char {behind : Bool} {c : Char} {ps : List Piece} {totals : List Int} {cs : List Char} :
      c.isDigit = false → Blocks false ps totals cs → Blocks behind (.text [c] :: ps) totals (c :: cs)
  | digits {ds : List Char} {ps : List Piece} {totals : List Int} {cs : List Char} :
      Digits ds → Blocks true ps totals cs → Blocks false (.text ds :: ps) totals (ds ++ cs)
  | dice {written : List Char} {pool : Pool} {total : Int} {ps : List Piece} {totals : List Int} {cs : List Char} :
      0 ≤ total → Blocks true ps totals cs →
        Blocks false (.dice written pool :: ps) (total :: totals) (intChars total ++ cs)

section Pieces

variable {c : Char} {cs written rest : List Char} {totals : List Int} {behind : Bool}

theorem eq_append_of_leadingTerm? (h : leadingTerm? cs = some (written, rest)) :
    ∃ count letter sides, written = count ++ letter :: sides ∧ count ≠ [] ∧
      (∀ c ∈ count, Text.isDecimalDigit c = true) ∧ isDieLetter letter = true ∧ sides ≠ [] ∧
        (∀ c ∈ sides, Text.isDecimalDigit c = true) ∧ ∀ c ∈ rest.head?, Text.isDecimalDigit c = false := by
  unfold leadingTerm? at h
  split at h
  · cases h
  · next letter after hdrop =>
    dsimp only at h
    split at h
    · next hterm =>
      obtain ⟨hcount, hletter, hsides⟩ := hterm
      cases h
      have hdigits (xs : List Char) : ∀ c ∈ xs.takeWhile Text.isDecimalDigit, Text.isDecimalDigit c = true :=
        fun c hc => List.all_eq_true.mp List.all_takeWhile c hc
      exact ⟨_, letter, _, rfl, hcount, hdigits cs, hletter, hsides, hdigits after, head?_dropWhile_eq_false⟩
    · cases h

/-- A pool in ASCII digits can be read. -/
theorem termPiece_eq_dice (h : leadingTerm? cs = some (written, rest))
    (hascii : ∀ c ∈ written, Text.isDecimalDigit c = true → c.isDigit = true) :
    ∃ pool, termPiece written = .dice written pool := by
  obtain ⟨count, letter, sides, rfl, hcount, hcounts, hletter, hsides, hsidess, -⟩ := eq_append_of_leadingTerm? h
  have hwriting := Pool.Writing.mk hcount (fun c hc => hascii c (by simp [hc]) (hcounts c hc)) hletter hsides
    fun c hc => hascii c (by simp [hc]) (hsidess c hc)
  exact ⟨_, by rw [termPiece, hwriting.ofText]⟩

theorem digits_intChars {t : Int} (h : 0 ≤ t) : Digits (intChars t) := by
  obtain ⟨n, rfl⟩ := Int.eq_ofNat_of_zero_le h
  exact digits_toDigits n

/-- The pieces of a text are blocks if there are no other digits than ASCII ones and no total has a sign. -/
theorem blocks_splice (hascii : ∀ c ∈ splice (pieces cs) totals, Text.isDecimalDigit c = true → c.isDigit = true)
    (htotals : ∀ t ∈ totals, 0 ≤ t) (hlength : totals.length = (pools (pieces cs)).length)
    (hbehind : behind = true → ∀ c ∈ cs.head?, Text.isDecimalDigit c = false) :
    Blocks behind (pieces cs) totals (splice (pieces cs) totals) := by
  induction cs using pieces.induct generalizing totals behind with
  | case1 =>
    rw [pieces] at hlength ⊢
    rw [List.eq_nil_of_length_eq_zero hlength]
    exact .nil
  | case2 c others written rest hterm ih =>
    obtain ⟨count, letter, sides, hwritten, hcount, hcounts, -, -, -, hrest⟩ := eq_append_of_leadingTerm? hterm
    obtain ⟨happend, -⟩ := append_of_leadingTerm? hterm
    have hfirst : behind = false := by
      apply Bool.eq_false_iff.mpr
      intro htrue
      obtain ⟨d, ds, rfl⟩ := List.exists_cons_of_ne_nil hcount
      rw [← happend, hwritten] at hbehind
      have hnot := hbehind htrue d rfl
      rw [hcounts d List.mem_cons_self] at hnot
      cases hnot
    subst hfirst
    rw [pieces_of_leadingTerm? hterm] at hascii hlength ⊢
    cases hpiece : termPiece written with
    | text chars =>
      have hchars : chars = written := by simpa [hpiece, Piece.chars] using chars_termPiece written
      subst hchars
      rw [hpiece] at hascii
      obtain ⟨pool, hdice⟩ := termPiece_eq_dice hterm fun c hc => hascii c (by simp [splice, Piece.chars, hc])
      rw [hpiece] at hdice
      cases hdice
    | dice chars pool =>
      rw [hpiece] at hascii hlength
      obtain ⟨t, totals, rfl⟩ := List.exists_cons_of_length_eq_add_one hlength
      rw [List.forall_mem_cons] at htotals
      refine .dice htotals.1 (ih ?_ htotals.2 (Nat.succ.inj hlength) fun _ => hrest)
      exact fun c hc => hascii c (List.mem_append_right _ hc)
  | case3 c others hterm digit ih =>
    have hfirst : behind = false := by
      apply Bool.eq_false_iff.mpr
      intro htrue
      rw [hbehind htrue c rfl] at digit
      cases digit
    subst hfirst
    rw [pieces_cons_of_none hterm, if_pos digit] at hascii hlength ⊢
    have hrun : ∀ x ∈ c :: others.takeWhile Text.isDecimalDigit, x.isDigit = true := by
      intro x hx
      apply hascii x (List.mem_append_left _ hx)
      rcases List.mem_cons.mp hx with rfl | hx
      · exact digit
      · exact List.all_eq_true.mp List.all_takeWhile x hx
    refine .digits ⟨List.cons_ne_nil _ _, hrun⟩ (ih ?_ htotals hlength fun _ => head?_dropWhile_eq_false)
    exact fun x hx => hascii x (List.mem_append_right _ hx)
  | case4 c others hterm digit ih =>
    rw [pieces_cons_of_none hterm, if_neg digit] at hascii hlength ⊢
    have hc : c.isDigit = false := Bool.eq_false_iff.mpr fun h => digit (Text.isDecimalDigit_of_isDigit h)
    refine .char hc (ih ?_ htotals hlength fun h => absurd h Bool.false_ne_true)
    exact fun x hx => hascii x (List.mem_cons_of_mem c hx)

end Pieces

namespace Blocks

variable {behind : Bool} {ps qs : List Piece} {totals : List Int} {cs xs ys : List Char}

theorem weaken (h : Blocks behind ps totals cs) : Blocks false ps totals cs := by
  cases h with
  | nil => exact .nil
  | char hc h => exact .char hc h
  | digits hds h => exact .digits hds h
  | dice ht h => exact .dice ht h

/-- The text is the one in which the totals stand for the pools. -/
theorem eq_splice (h : Blocks behind ps totals cs) :
    cs = splice ps totals ∧ totals.length = (pools ps).length := by
  induction h with
  | nil => exact ⟨rfl, rfl⟩
  | char _ _ ih => exact ⟨congrArg (List.cons _) ih.1, ih.2⟩
  | digits _ _ ih => exact ⟨congrArg (_ ++ ·) ih.1, ih.2⟩
  | dice _ _ ih => exact ⟨congrArg (_ ++ ·) ih.1, congrArg (· + 1) ih.2⟩

theorem append_inv (h : Blocks behind (ps ++ qs) totals cs) :
    ∃ us vs xs ys, totals = us ++ vs ∧ cs = xs ++ ys ∧ Blocks behind ps us xs ∧ Blocks false qs vs ys := by
  induction ps generalizing behind totals cs with
  | nil => exact ⟨[], totals, [], cs, rfl, rfl, .nil, h.weaken⟩
  | cons p ps ih =>
    cases h with
    | char hc h =>
      obtain ⟨us, vs, xs, ys, rfl, rfl, hxs, hys⟩ := ih h
      exact ⟨us, vs, _, ys, rfl, rfl, .char hc hxs, hys⟩
    | digits hds h =>
      obtain ⟨us, vs, xs, ys, rfl, rfl, hxs, hys⟩ := ih h
      exact ⟨us, vs, _, ys, rfl, (List.append_assoc ..).symm, .digits hds hxs, hys⟩
    | dice ht h =>
      obtain ⟨us, vs, xs, ys, rfl, rfl, hxs, hys⟩ := ih h
      exact ⟨_, vs, _, ys, rfl, (List.append_assoc ..).symm, .dice ht hxs, hys⟩

/-- A run of digits in front lies on one side of what does not part two digits. -/
theorem digits_inv {ds : List Char} (hds : Digits ds) (h : ds ++ cs = xs ++ ys) (hne : xs ≠ [])
    (hcut : ∀ x ∈ xs.getLast?, ∀ y ∈ ys.head?, x.isDigit = true → y.isDigit = false) :
    ∃ zs, xs = ds ++ zs ∧ cs = zs ++ ys := by
  rcases List.append_eq_append_iff.mp h with ⟨zs, rfl, rfl⟩ | ⟨zs, rfl, rfl⟩
  · exact ⟨zs, rfl, rfl⟩
  · cases zs with
    | nil => exact ⟨[], by rw [List.append_nil, List.append_nil], rfl⟩
    | cons z zs =>
      have hlast := hds.2 (xs.getLast hne) (List.mem_append_left _ (List.getLast_mem hne))
      have hnot := hcut _ (List.getLast?_eq_some_getLast hne) z rfl hlast
      rw [hds.2 z (by simp)] at hnot
      cases hnot

/-- A division of the text that does not part two digits divides the pieces. -/
theorem split (h : Blocks behind ps totals (xs ++ ys))
    (hcut : ∀ x ∈ xs.getLast?, ∀ y ∈ ys.head?, x.isDigit = true → y.isDigit = false) :
    ∃ qs rs us vs, ps = qs ++ rs ∧ totals = us ++ vs ∧ Blocks behind qs us xs ∧ Blocks false rs vs ys := by
  generalize htext : xs ++ ys = text at h
  induction h generalizing xs with
  | nil =>
    obtain ⟨rfl, rfl⟩ := List.append_eq_nil_iff.mp htext
    exact ⟨[], [], [], [], rfl, rfl, .nil, .nil⟩
  | @char behind c ps totals cs hc hrest ih =>
    cases xs with
    | nil =>
      obtain rfl : ys = c :: cs := htext
      exact ⟨[], _, [], _, rfl, rfl, .nil, .char hc hrest⟩
    | cons x xs =>
      obtain ⟨rfl, hcs⟩ := List.cons.inj htext
      have hcut' := fun z hz => hcut z (@List.mem_getLast?_append_of_mem_getLast? _ [x] xs z hz)
      obtain ⟨qs, rs, us, vs, rfl, rfl, hqs, hrs⟩ := ih hcut' hcs
      exact ⟨_, rs, us, vs, rfl, rfl, .char hc hqs, hrs⟩
  | @digits ds ps totals cs hds hrest ih =>
    rcases eq_or_ne xs [] with rfl | hne
    · obtain rfl : ys = ds ++ cs := htext
      exact ⟨[], _, [], _, rfl, rfl, .nil, .digits hds hrest⟩
    · obtain ⟨zs, rfl, rfl⟩ := digits_inv hds htext.symm hne hcut
      have hcut' := fun z hz => hcut z (List.mem_getLast?_append_of_mem_getLast? hz)
      obtain ⟨qs, rs, us, vs, rfl, rfl, hqs, hrs⟩ := ih hcut' rfl
      exact ⟨_, rs, us, vs, rfl, rfl, .digits hds hqs, hrs⟩
  | @dice written pool total ps totals cs ht hrest ih =>
    rcases eq_or_ne xs [] with rfl | hne
    · obtain rfl : ys = intChars total ++ cs := htext
      exact ⟨[], _, [], _, rfl, rfl, .nil, .dice ht hrest⟩
    · obtain ⟨zs, rfl, rfl⟩ := digits_inv (digits_intChars ht) htext.symm hne hcut
      have hcut' := fun z hz => hcut z (List.mem_getLast?_append_of_mem_getLast? hz)
      obtain ⟨qs, rs, us, vs, rfl, rfl, hqs, hrs⟩ := ih hcut' rfl
      exact ⟨_, rs, _, vs, rfl, rfl, .dice ht hqs, hrs⟩

/-- Text alone has no totals and is written as it stands. -/
theorem of_pools_eq_nil (h : Blocks behind ps totals cs) (hpools : pools ps = []) :
    totals = [] ∧ cs = ps.flatMap Piece.chars := by
  obtain ⟨rfl, hlength⟩ := h.eq_splice
  rw [hpools] at hlength
  obtain rfl := List.eq_nil_of_length_eq_zero hlength
  have hsplice := @splice_append _ [] hpools []
  rw [List.append_nil, splice, List.append_nil] at hsplice
  exact ⟨rfl, hsplice⟩

theorem exists_digit (h : Blocks behind ps totals cs) (hpools : pools ps ≠ []) : ∃ x ∈ cs, x.isDigit = true := by
  induction h with
  | nil => exact absurd rfl hpools
  | char hc _ ih =>
    obtain ⟨x, hx, hdigit⟩ := ih hpools
    exact ⟨x, List.mem_cons_of_mem _ hx, hdigit⟩
  | digits hds _ ih =>
    obtain ⟨x, hx, hdigit⟩ := ih hpools
    exact ⟨x, List.mem_append_right _ hx, hdigit⟩
  | dice ht _ ih =>
    have hds := digits_intChars ht
    obtain ⟨x, hx⟩ := List.exists_mem_of_ne_nil _ hds.1
    exact ⟨x, List.mem_append_left _ hx, hds.2 x hx⟩

end Blocks

/-- What may stand on one side of a point: digits, a pool or nothing. -/
inductive Side : List Piece → Prop
  | empty : Side []
  | digits {ds : List Char} : Digits ds → Side [.text ds]
  | dice (written : List Char) (pool : Pool) : Side [.dice written pool]

/-- A pool by itself. -/
inductive Lone : List Piece → Prop
  | dice (written : List Char) (pool : Pool) : Lone [.dice written pool]

/-- A pool, and what a point directly beside it joins to it. -/
inductive Amount : List Piece → Prop
  | lone (written : List Char) (pool : Pool) : Amount [.dice written pool]
  | joined {left right : List Piece} : Side left → Side right → pools (left ++ .text ['.'] :: right) ≠ [] →
      Amount (left ++ .text ['.'] :: right)

section Amounts

variable {behind : Bool} {ps : List Piece} {totals : List Int} {cs : List Char}

/-- Digits alone are one run. -/
theorem Blocks.side (h : Blocks behind ps totals cs) (hdigits : ∀ c ∈ cs, c.isDigit = true) :
    Side ps ∧ (behind = true → ps = []) := by
  induction h with
  | nil => exact ⟨.empty, fun _ => rfl⟩
  | @char _ c _ _ _ hc _ _ =>
    rw [hdigits c List.mem_cons_self] at hc
    cases hc
  | digits hds _ ih =>
    obtain ⟨-, hrest⟩ := ih fun c hc => hdigits c (List.mem_append_right _ hc)
    rw [hrest rfl]
    exact ⟨.digits hds, nofun⟩
  | dice _ _ ih =>
    obtain ⟨-, hrest⟩ := ih fun c hc => hdigits c (List.mem_append_right _ hc)
    rw [hrest rfl]
    exact ⟨.dice _ _, nofun⟩

/-- Digits and one point are one run on each side of the point. -/
theorem Blocks.side_or_point (h : Blocks behind ps totals cs) (hparts : ∀ c ∈ cs, Numeral.isPart c = true)
    (hpoint : cs.count '.' ≤ 1) :
    (Side ps ∧ (behind = true → ps = [])) ∨
      ∃ left right, ps = left ++ .text ['.'] :: right ∧ Side left ∧ Side right ∧ (behind = true → left = []) := by
  induction h with
  | nil => exact .inl ⟨.empty, fun _ => rfl⟩
  | @char behind c ps totals cs hc hrest _ =>
    have hpart := hparts c List.mem_cons_self
    obtain rfl : c = '.' := by simpa [Numeral.isPart, hc] using hpart
    rw [List.count_cons_self] at hpoint
    have hdigits : ∀ x ∈ cs, x.isDigit = true := by
      intro x hx
      have hne : x ≠ '.' := by
        rintro rfl
        have := List.one_le_count_iff.mpr hx
        omega
      simpa [Numeral.isPart, hne] using hparts x (List.mem_cons_of_mem _ hx)
    exact .inr ⟨[], ps, rfl, .empty, (hrest.side hdigits).1, fun _ => rfl⟩
  | digits hds _ ih =>
    rw [List.count_append, hds.count_point, Nat.zero_add] at hpoint
    rcases ih (fun c hc => hparts c (List.mem_append_right _ hc)) hpoint with
      ⟨-, hrest⟩ | ⟨left, right, rfl, -, hright, hleft⟩
    · rw [hrest rfl]
      exact .inl ⟨.digits hds, fun h => absurd h Bool.false_ne_true⟩
    · rw [hleft rfl]
      exact .inr ⟨[_], right, rfl, .digits hds, hright, fun h => absurd h Bool.false_ne_true⟩
  | dice ht _ ih =>
    rw [List.count_append, (digits_intChars ht).count_point, Nat.zero_add] at hpoint
    rcases ih (fun c hc => hparts c (List.mem_append_right _ hc)) hpoint with
      ⟨-, hrest⟩ | ⟨left, right, rfl, -, hright, hleft⟩
    · rw [hrest rfl]
      exact .inl ⟨.dice _ _, fun h => absurd h Bool.false_ne_true⟩
    · rw [hleft rfl]
      exact .inr ⟨[_], right, rfl, .dice _ _, hright, fun h => absurd h Bool.false_ne_true⟩

/-- A number with a pool in it is an amount. -/
theorem Blocks.amount {n : Numeral} (h : Blocks behind ps totals cs) (hn : Numeral.ofChars? cs = some n)
    (hpools : pools ps ≠ []) : Amount ps := by
  have hpoint : cs.count '.' ≤ 1 := by
    have hsome := Numeral.ofChars?_isSome cs
    simp only [hn, Option.isSome_some, Numeral.isWellFormed, Bool.true_eq, Bool.and_eq_true,
      decide_eq_true_eq] at hsome
    exact hsome.2
  rcases h.side_or_point (parts_of_ofChars? hn) hpoint with ⟨hside, -⟩ | ⟨left, right, rfl, hleft, hright, -⟩
  · cases hside with
    | empty => exact absurd rfl hpools
    | digits => exact absurd rfl hpools
    | dice written pool => exact .lone written pool
  · exact .joined hleft hright hpools

end Amounts

end Tabletop.Query

import Tabletop.Proofs.Blocks
import Tabletop.Proofs.LetterCase

/-!
The pools of a text as matches. What may be a pool is a run of decimal digits of any script, the letter of a die and
another such run; it can be read if the digits are ASCII ones. `Matches` says which stretches are found from left to
right: each begins as far to the left as possible, is as long as possible and lies behind the one before. Main
statements: every text has its matches, only one row of them, and the pieces of a text are the matches that can be
read together with the texts around these, to which all other matches belong.
-/

namespace Tabletop.Query

open Arithmetic

/-- What may be a pool. -/
inductive IsTerm : List Char → Prop
  | mk {count sides : List Char} {letter : Char} :
      count ≠ [] → (∀ c ∈ count, Text.isDecimalDigit c = true) → isDieLetter letter = true →
      sides ≠ [] → (∀ c ∈ sides, Text.isDecimalDigit c = true) → IsTerm (count ++ letter :: sides)

/-- A stretch that was found, with the text between it and the one before. -/
structure Match where
  before : List Char
  written : List Char
  deriving DecidableEq, Repr

/-- `Matches cs found rest`: the matches in `cs` from left to right, and the text behind the last of them. -/
inductive Matches : List Char → List Match → List Char → Prop
  | none {cs : List Char} : (∀ term, IsTerm term → ¬term <:+: cs) → Matches cs [] cs
  | next {before written behind rest : List Char} {found : List Match} :
      IsTerm written →
      (∀ front term back, before ++ written ++ behind = front ++ term ++ back → IsTerm term →
        before.length ≤ front.length) →
      (∀ term back, written ++ behind = term ++ back → IsTerm term → term.length ≤ written.length) →
      Matches behind found rest →
      Matches (before ++ written ++ behind) (⟨before, written⟩ :: found) rest

/-- All digits are ASCII ones. -/
def Match.isReadable (m : Match) : Bool := m.written.all fun c => c.isDigit || isDieLetter c

/-- The matches that can be read. -/
def terms (found : List Match) : List (List Char) := (found.filter Match.isReadable).map Match.written

/-- The texts before, between and behind the matches that can be read. -/
def gaps : List Match → List Char → List (List Char)
  | [], rest => [rest]
  | m :: found, rest =>
    if m.isReadable then m.before :: gaps found rest
    else (gaps found rest).modifyHead (m.before ++ m.written ++ ·)

@[simp] theorem terms_nil : terms [] = [] := rfl

theorem terms_cons (m : Match) (found : List Match) :
    terms (m :: found) = if m.isReadable then m.written :: terms found else terms found := by
  unfold terms
  rw [List.filter_cons]
  split <;> rfl

@[simp] theorem gaps_nil (rest : List Char) : gaps [] rest = [rest] := rfl

theorem gaps_cons (m : Match) (found : List Match) (rest : List Char) :
    gaps (m :: found) rest = if m.isReadable then m.before :: gaps found rest
      else (gaps found rest).modifyHead (m.before ++ m.written ++ ·) := rfl

/-- Gaps with one text between any two of them. -/
def weave : (gaps texts : List (List Char)) → List Char
  | [], _ => []
  | gap :: gaps, [] => gap ++ weave gaps []
  | gap :: gaps, text :: texts => gap ++ text ++ weave gaps texts

section Terms

variable {cs term written front back rest : List Char}

theorem not_isDecimalDigit_of_isDieLetter {c : Char} (h : isDieLetter c = true) : Text.isDecimalDigit c = false := by
  apply not_isDecimalDigit_of_isAlpha
  rcases isDieLetter_iff.mp h with rfl | rfl <;> rfl

theorem not_isDieLetter_of_isDecimalDigit {c : Char} (h : Text.isDecimalDigit c = true) : isDieLetter c = false := by
  apply Bool.eq_false_iff.mpr
  intro hletter
  rw [not_isDecimalDigit_of_isDieLetter hletter] at h
  cases h

theorem isTerm_of_leadingTerm? (h : leadingTerm? cs = some (written, rest)) : IsTerm written := by
  obtain ⟨count, letter, sides, rfl, hcount, hcounts, hletter, hsides, hsidess, -⟩ := eq_append_of_leadingTerm? h
  exact .mk hcount hcounts hletter hsides hsidess

/-- Where a term stands behind digits, a term stands at the front. -/
theorem leadingTerm?_isSome (hterm : IsTerm term) (hfront : ∀ c ∈ front, Text.isDecimalDigit c = true) :
    (leadingTerm? (front ++ term ++ back)).isSome = true := by
  obtain @⟨count, sides, letter, hcount, hcounts, hletter, hsides, hsidess⟩ := hterm
  have hletter' := not_isDecimalDigit_of_isDieLetter hletter
  have hdigits : ∀ c ∈ front ++ count, Text.isDecimalDigit c = true :=
    fun c hc => (List.mem_append.mp hc).elim (hfront c) (hcounts c)
  obtain ⟨htake, hdrop⟩ := span_append (letter :: (sides ++ back)) hdigits (by simpa using hletter')
  obtain ⟨side, sides, rfl⟩ := List.exists_cons_of_ne_nil hsides
  have htext : front ++ (count ++ letter :: side :: sides) ++ back =
      front ++ count ++ letter :: (side :: sides ++ back) := by simp
  rw [htext]
  simp only [leadingTerm?, htake, hdrop]
  have hside := hsidess side List.mem_cons_self
  rw [if_pos ⟨by simp [hcount], hletter, by simp [hside]⟩]
  rfl

/-- The term at the front is as long as a term can be there. -/
theorem length_le_of_leadingTerm? (h : leadingTerm? cs = some (written, rest)) (hcs : cs = term ++ back)
    (hterm : IsTerm term) : term.length ≤ written.length := by
  obtain ⟨count, letter, sides, rfl, -, hcounts, hletter, -, hsidess, hrest⟩ := eq_append_of_leadingTerm? h
  obtain @⟨count', sides', letter', -, hcounts', hletter', -, hsidess'⟩ := hterm
  have hsame : count ++ letter :: (sides ++ rest) = count' ++ letter' :: (sides' ++ back) := by
    rw [← (append_of_leadingTerm? h).1] at hcs
    simpa using hcs
  obtain ⟨rfl, hbehind⟩ := span_append_inj hsame hcounts (by simpa using not_isDecimalDigit_of_isDieLetter hletter)
    hcounts' (by simpa using not_isDecimalDigit_of_isDieLetter hletter')
  have hsides := congrArg (List.takeWhile Text.isDecimalDigit) (List.cons.inj hbehind).2
  rw [(span_append rest hsidess hrest).1, List.takeWhile_append_of_pos hsidess'] at hsides
  rw [hsides]
  simp only [List.length_append, List.length_cons]
  omega

end Terms

section Readable

variable {cs term : List Char} {m : Match}

/-- The decimal digits that are not ASCII ones. -/
def otherDigitRanges : List (Nat × Nat) := Text.decimalDigitRanges.tail

theorem isUntouched_otherDigits : Text.isUntouched otherDigitRanges = true := by decide +kernel

theorem inRanges_otherDigits {c : Char} (h : Text.isDecimalDigit c = true) (hascii : c.isDigit = false) :
    Text.inRanges otherDigitRanges c = true := by
  have hranges : Text.decimalDigitRanges = (48, 57) :: otherDigitRanges := rfl
  have hnot : ¬(48 ≤ c.toNat ∧ c.toNat ≤ 57) := fun hin => by simp [isDigit_iff_toNat.mpr hin] at hascii
  simpa [Text.isDecimalDigit, hascii, hranges, Text.inRanges, hnot] using h

/-- Lower case keeps a digit that is not an ASCII one, or puts another such digit in its place. -/
theorem exists_otherDigit_lowerFrom {c : Char} (hc : c ∈ cs) (h : Text.inRanges otherDigitRanges c = true)
    (inWord : Bool) : ∃ d ∈ Text.lowerFrom inWord cs, Text.inRanges otherDigitRanges d = true := by
  induction cs generalizing inWord with
  | nil => cases hc
  | cons x cs ih =>
    rw [Text.lowerFrom_cons]
    rcases List.mem_cons.mp hc with rfl | hc
    · obtain ⟨d, hd⟩ := List.exists_mem_of_ne_nil _ (Text.lowerAt_ne_nil inWord c cs)
      refine ⟨d, List.mem_append_left _ hd, ?_⟩
      rw [Text.inRanges_of_mem_lowerAt isUntouched_otherDigits hd, h]
    · obtain ⟨d, hd, hin⟩ := ih hc (if Text.isCaseIgnorable x then inWord else Text.isCased x)
      exact ⟨d, List.mem_append_right _ hd, hin⟩

theorem not_inRanges_otherDigits {c : Char} (h : c.isDigit = true ∨ isDieLetter c = true) :
    Text.inRanges otherDigitRanges c = false := by
  have hranges : ∀ r ∈ otherDigitRanges, 0x660 ≤ r.1 := by decide
  rw [Text.inRanges_eq_false_iff]
  intro r hr hin
  have hlow := toNat_of_isDigit_or_isDieLetter h
  have := hranges r hr
  omega

theorem IsTerm.isDecimalDigit_or_isDieLetter (h : IsTerm term) {c : Char} (hc : c ∈ term) :
    Text.isDecimalDigit c = true ∨ isDieLetter c = true := by
  obtain @⟨count, sides, letter, -, hcounts, hletter, -, hsidess⟩ := h
  rcases List.mem_append.mp hc with hc | hc
  · exact .inl (hcounts c hc)
  · rcases List.mem_cons.mp hc with rfl | hc
    · exact .inr hletter
    · exact .inl (hsidess c hc)

theorem IsTerm.ne_nil (h : IsTerm term) : term ≠ [] := by
  cases h
  simp

theorem IsTerm.trim_eq (h : IsTerm term) : Text.trim term = term := by
  refine Text.trim_of_not_blank fun c hc => ?_
  apply Bool.eq_false_iff.mpr
  intro hblank
  have hseparator : IsSeparator c := .inl hblank
  rcases h.isDecimalDigit_or_isDieLetter hc with hdigit | hletter
  · rw [hseparator.not_isDecimalDigit] at hdigit
    cases hdigit
  · rw [hseparator.not_isDieLetter] at hletter
    cases hletter

/-- A term that can be read is a pool. -/
theorem IsTerm.exists_writing (h : IsTerm m.written) (hreadable : m.isReadable = true) :
    ∃ pool : Pool, pool.Writing m.written := by
  obtain ⟨before, written⟩ := m
  obtain @⟨count, sides, letter, hcount, hcounts, hletter, hsides, hsidess⟩ := h
  have hascii : ∀ c ∈ count ++ letter :: sides, Text.isDecimalDigit c = true → c.isDigit = true := by
    intro c hc hdigit
    have hc := List.all_eq_true.mp hreadable c hc
    simpa [not_isDieLetter_of_isDecimalDigit hdigit] using hc
  refine ⟨_, .mk hcount (fun c hc => hascii c ?_ (hcounts c hc)) hletter hsides
    fun c hc => hascii c ?_ (hsidess c hc)⟩
  · exact List.mem_append_left _ hc
  · exact List.mem_append_right _ (List.mem_cons_of_mem _ hc)

/-- A term that cannot be read stays text. -/
theorem IsTerm.termPiece_eq_text (h : IsTerm m.written) (hreadable : m.isReadable = false) :
    termPiece m.written = .text m.written := by
  obtain ⟨c, hc, hother⟩ := List.all_eq_false.mp hreadable
  rw [Bool.not_eq_true, Bool.or_eq_false_iff] at hother
  have hdigit : Text.isDecimalDigit c = true :=
    (h.isDecimalDigit_or_isDieLetter hc).resolve_right (by simp [hother.2])
  obtain ⟨d, hd, hin⟩ := exists_otherDigit_lowerFrom hc (inRanges_otherDigits hdigit hother.1) false
  unfold termPiece
  split
  · next pool hpool =>
    obtain ⟨q, hwriting, -⟩ := Pool.exists_writing_lower hpool
    rw [String.toList_ofList, h.trim_eq] at hwriting
    rw [not_inRanges_otherDigits (hwriting.isDigit_or_isDieLetter d hd)] at hin
    cases hin
  · rfl

end Readable

section Unique

variable {cs front term back rest rest' : List Char} {found found' : List Match}

/-- No two rows of matches are found in one text. -/
theorem Matches.unique (h : Matches cs found rest) (h' : Matches cs found' rest') :
    found = found' ∧ rest = rest' := by
  induction h generalizing found' rest' with
  | none hnone =>
    cases h' with
    | none => exact ⟨rfl, rfl⟩
    | @next before written behind _ _ hterm => exact absurd ⟨before, behind, rfl⟩ (hnone written hterm)
  | @next before written behind rest found hterm hfirst hlongest _ ih =>
    generalize hcs : before ++ written ++ behind = text at h'
    cases h' with
    | none hnone => exact absurd ⟨before, behind, hcs⟩ (hnone written hterm)
    | @next before' written' behind' rest' found' hterm' hfirst' hlongest' hrest' =>
      have hbefore : before.length = before'.length :=
        Nat.le_antisymm (hfirst _ _ _ hcs hterm') (hfirst' _ _ _ hcs.symm hterm)
      rw [List.append_assoc, List.append_assoc] at hcs
      obtain ⟨rfl, hlast⟩ := List.append_inj hcs hbefore
      have hwritten : written.length = written'.length :=
        Nat.le_antisymm (hlongest' _ _ hlast.symm hterm) (hlongest _ _ hlast hterm')
      obtain ⟨rfl, rfl⟩ := List.append_inj hlast hwritten
      obtain ⟨rfl, rfl⟩ := ih hrest'
      exact ⟨rfl, rfl⟩

end Unique

section Woven

variable {cs rest : List Char} {found : List Match} {texts : List (List Char)}

theorem length_gaps (found : List Match) (rest : List Char) :
    (gaps found rest).length = (terms found).length + 1 := by
  induction found with
  | nil => rfl
  | cons m found ih =>
    cases hreadable : m.isReadable with
    | true => simp [gaps_cons, terms_cons, hreadable, ih]
    | false => simpa [gaps_cons, terms_cons, hreadable] using ih

theorem gaps_eq_cons (found : List Match) (rest : List Char) : ∃ gap others, gaps found rest = gap :: others := by
  apply List.exists_cons_of_length_eq_add_one (length_gaps found rest)

/-- Text in front of the first gap is text in front of all. -/
theorem weave_modifyHead (run : List Char) (found : List Match) (rest : List Char) :
    weave ((gaps found rest).modifyHead (run ++ ·)) texts = run ++ weave (gaps found rest) texts := by
  obtain ⟨gap, others, hgaps⟩ := gaps_eq_cons found rest
  rw [hgaps, List.modifyHead_cons]
  cases texts <;> simp [weave]

/-- A text is its gaps with the readable matches between them. -/
theorem Matches.eq_weave (h : Matches cs found rest) : cs = weave (gaps found rest) (terms found) := by
  induction h with
  | none => simp [weave]
  | @next before written behind rest found _ _ _ _ ih =>
    cases hreadable : Match.isReadable ⟨before, written⟩ with
    | true => rw [terms_cons, gaps_cons, if_pos hreadable, if_pos hreadable, weave, ← ih]
    | false =>
      have hnot : ¬Match.isReadable ⟨before, written⟩ = true := by simp [hreadable]
      rw [terms_cons, gaps_cons, if_neg hnot, if_neg hnot, weave_modifyHead, ← ih]

/-- A match that cannot be read is in one of the gaps. -/
theorem exists_gap_of_not_readable {m : Match} (hm : m ∈ found) (hreadable : m.isReadable = false) :
    ∃ gap ∈ gaps found rest, m.written <:+: gap := by
  induction found with
  | nil => cases hm
  | cons x found ih =>
    obtain ⟨first, others, hgaps⟩ := gaps_eq_cons found rest
    cases hx : x.isReadable with
    | true =>
      have hm : m ∈ found := (List.mem_cons.mp hm).resolve_left fun h => by simp [h, hx] at hreadable
      obtain ⟨gap, hgap, hin⟩ := ih hm
      exact ⟨gap, by simp [gaps_cons, hx, hgap], hin⟩
    | false =>
      have hcons : gaps (x :: found) rest = (x.before ++ x.written ++ first) :: others := by
        simp [gaps_cons, hx, hgaps]
      rw [hcons]
      rcases List.mem_cons.mp hm with rfl | hm
      · exact ⟨_, List.mem_cons_self, m.before, first, rfl⟩
      · obtain ⟨gap, hgap, hin⟩ := ih hm
        rw [hgaps] at hgap
        rcases List.mem_cons.mp hgap with rfl | hgap
        · exact ⟨_, List.mem_cons_self, hin.trans (List.suffix_append _ _).isInfix⟩
        · exact ⟨gap, List.mem_cons_of_mem _ hgap, hin⟩

end Woven

section Pieces

variable {cs run rest rest' : List Char} {found found' : List Match} {ps : List Piece}

/-- Behind a run in which no term begins there are the same matches. -/
theorem Matches.push (h : Matches cs found rest)
    (hrun : ∀ front term back, run ++ cs = front ++ term ++ back → IsTerm term → run.length ≤ front.length) :
    ∃ found' rest', Matches (run ++ cs) found' rest' ∧ terms found' = terms found ∧
      gaps found' rest' = (gaps found rest).modifyHead (run ++ ·) := by
  -- Every term in the longer text lies behind the run.
  have hbehind : ∀ front term back, run ++ cs = front ++ term ++ back → IsTerm term →
      ∃ front', front = run ++ front' ∧ cs = front' ++ term ++ back := by
    intro front term back htext hterm
    have hlength := hrun front term back htext hterm
    rw [List.append_assoc] at htext
    rcases List.append_eq_append_iff.mp htext with ⟨front', hfront, hcs⟩ | ⟨zs, hzs, hterms⟩
    · exact ⟨front', hfront, by rw [hcs, List.append_assoc]⟩
    · have hnil : zs = [] := by
        apply List.eq_nil_of_length_eq_zero
        rw [hzs, List.length_append] at hlength
        omega
      subst hnil
      refine ⟨[], by rw [hzs, List.append_nil, List.append_nil], ?_⟩
      rw [List.nil_append]
      exact hterms.symm
  cases h with
  | none hnone =>
    refine ⟨[], run ++ cs, .none ?_, rfl, rfl⟩
    intro term hterm hin
    obtain ⟨front, back, htext⟩ := hin
    obtain ⟨front', -, hcs⟩ := hbehind front term back htext.symm hterm
    exact hnone term hterm ⟨front', back, hcs.symm⟩
  | @next before written behind rest found hterm hfirst hlongest hrest =>
    have hreadable : Match.isReadable ⟨run ++ before, written⟩ = Match.isReadable ⟨before, written⟩ := rfl
    refine ⟨⟨run ++ before, written⟩ :: found, rest, ?_, by simp [terms_cons, hreadable], ?_⟩
    · rw [List.append_assoc, ← List.append_assoc, ← List.append_assoc]
      refine .next hterm ?_ hlongest hrest
      intro front term back htext hterm'
      rw [List.append_assoc, List.append_assoc, ← List.append_assoc before] at htext
      obtain ⟨front', rfl, hcs⟩ := hbehind front term back htext hterm'
      have hle := hfirst front' term back hcs hterm'
      simp only [List.length_append]
      omega
    · rw [gaps_cons, gaps_cons, hreadable]
      split <;> simp [Function.comp_def]

/-- The pieces of a text are its gaps and the matches that can be read. -/
structure CutsAt (ps : List Piece) (found : List Match) (rest : List Char) : Prop where
  splice_eq (totals : List Int) : totals.length = (terms found).length →
    splice ps totals = weave (gaps found rest) (totals.map intChars)
  pools_eq :
    List.Forall₂ (fun term pool => ∃ p : Pool, p.Writing term ∧ pool = p.clamped) (terms found) (pools ps)

theorem CutsAt.text (h : CutsAt ps found rest) (hterms : terms found' = terms found)
    (hgaps : gaps found' rest' = (gaps found rest).modifyHead (run ++ ·)) : CutsAt (.text run :: ps) found' rest' where
  splice_eq totals hlength := by
    have hsplice := @splice_append [.text run] ps rfl totals
    rw [hterms] at hlength
    rw [hgaps, weave_modifyHead, ← h.splice_eq totals hlength]
    simpa [Piece.chars] using hsplice
  pools_eq := by
    rw [hterms]
    exact h.pools_eq

theorem CutsAt.dice {p : Pool} (h : CutsAt ps found rest) (hp : p.Writing run)
    (hreadable : Match.isReadable ⟨[], run⟩ = true) :
    CutsAt (.dice run p.clamped :: ps) (⟨[], run⟩ :: found) rest where
  splice_eq totals hlength := by
    rw [terms_cons, if_pos hreadable, List.length_cons] at hlength
    obtain ⟨total, totals, rfl⟩ := List.exists_cons_of_length_eq_add_one hlength
    rw [gaps_cons, if_pos hreadable, List.map_cons, weave, splice, h.splice_eq totals (Nat.succ.inj hlength)]
    rfl
  pools_eq := by
    rw [terms_cons, if_pos hreadable]
    exact .cons ⟨p, hp, rfl⟩ h.pools_eq

/-- Where no term is at the front, none begins within the digits there. -/
theorem length_le_of_leadingTerm?_eq_none {term front back : List Char}
    (hnone : leadingTerm? (run ++ cs) = none) (htext : run ++ cs = front ++ term ++ back) (hterm : IsTerm term)
    (hrun : ∀ c ∈ run.dropLast, Text.isDecimalDigit c = true) : run.length ≤ front.length := by
  by_contra hlt
  have hfront : ∀ c ∈ front, Text.isDecimalDigit c = true := by
    have hwithin : front <+: run.dropLast := by
      have hfront : front <+: run ++ cs := ⟨term ++ back, by rw [htext, List.append_assoc]⟩
      have hrun : run.dropLast <+: run ++ cs := (List.dropLast_prefix run).trans (List.prefix_append ..)
      refine List.prefix_of_prefix_length_le hfront hrun ?_
      rw [List.length_dropLast]
      omega
    exact fun c hc => hrun c (hwithin.subset hc)
  have hsome : (leadingTerm? (front ++ term ++ back)).isSome = true := leadingTerm?_isSome hterm hfront
  rw [← htext, hnone] at hsome
  cases hsome

/-- A term at the front is the first match. -/
theorem Matches.of_leadingTerm? {written behind : List Char} (hterm : leadingTerm? cs = some (written, behind))
    (h : Matches behind found rest) : Matches cs (⟨[], written⟩ :: found) rest := by
  have happend : [] ++ written ++ behind = cs := (append_of_leadingTerm? hterm).1
  rw [← happend]
  refine .next (isTerm_of_leadingTerm? hterm) (fun _ _ _ _ _ => Nat.zero_le _) ?_ h
  intro term back htext hterm'
  exact length_le_of_leadingTerm? hterm (happend.symm.trans htext) hterm'

/-- So is a term behind one character with which none begins. -/
theorem Matches.cons_of_leadingTerm? {c : Char} {written behind : List Char}
    (hnone : leadingTerm? (c :: cs) = Option.none) (hterm : leadingTerm? cs = some (written, behind))
    (h : Matches behind found rest) : Matches (c :: cs) (⟨[c], written⟩ :: found) rest := by
  have happend : [c] ++ written ++ behind = c :: cs := congrArg (c :: ·) (append_of_leadingTerm? hterm).1
  rw [← happend]
  refine .next (isTerm_of_leadingTerm? hterm) ?_ ?_ h
  · intro front term back htext hterm'
    rw [happend] at htext
    exact @length_le_of_leadingTerm?_eq_none cs [c] term front back hnone htext hterm' (List.forall_mem_nil _)
  · intro term back htext hterm'
    exact length_le_of_leadingTerm? hterm ((append_of_leadingTerm? hterm).1.symm.trans htext) hterm'

theorem matches_nil : Matches [] [] [] := by
  apply Matches.none
  intro term hterm hin
  exact hterm.ne_nil (List.infix_nil.mp hin)

/-- Every text has its matches, and the pieces follow them. -/
theorem exists_matches (cs : List Char) : ∃ found rest, Matches cs found rest ∧ CutsAt (pieces cs) found rest := by
  induction cs using pieces.induct with
  | case1 =>
    refine ⟨[], [], matches_nil, ?_⟩
    rw [pieces]
    refine ⟨?_, .nil⟩
    intro totals hlength
    rw [List.eq_nil_of_length_eq_zero hlength]
    rfl
  | case2 c others written rest₁ hterm ih =>
    obtain ⟨found, rest, hmatches, hcut⟩ := ih
    have hwritten := isTerm_of_leadingTerm? hterm
    refine ⟨⟨[], written⟩ :: found, rest, .of_leadingTerm? hterm hmatches, ?_⟩
    rw [pieces_of_leadingTerm? hterm]
    cases hreadable : Match.isReadable ⟨[], written⟩ with
    | true =>
      obtain ⟨p, hp⟩ := hwritten.exists_writing (m := ⟨[], written⟩) hreadable
      have hpiece : termPiece written = .dice written p.clamped := by rw [termPiece, hp.ofText]
      rw [hpiece]
      exact hcut.dice hp hreadable
    | false =>
      have hnot : ¬Match.isReadable ⟨[], written⟩ = true := by simp [hreadable]
      have hpiece : termPiece written = .text written := hwritten.termPiece_eq_text (m := ⟨[], written⟩) hreadable
      rw [hpiece]
      apply hcut.text
      · rw [terms_cons, if_neg hnot]
      · rw [gaps_cons, if_neg hnot, List.nil_append]
  | case3 c others hnone digit ih =>
    obtain ⟨found, rest, hmatches, hcut⟩ := ih
    rw [pieces_cons_of_none hnone, if_pos digit]
    have hsplit : c :: others = c :: others.takeWhile Text.isDecimalDigit ++ others.dropWhile Text.isDecimalDigit := by
      rw [List.cons_append, List.takeWhile_append_dropWhile]
    have hrun : ∀ x ∈ (c :: others.takeWhile Text.isDecimalDigit).dropLast, Text.isDecimalDigit x = true := by
      intro x hx
      rcases List.mem_cons.mp (List.dropLast_subset _ hx) with rfl | hx
      · exact digit
      · exact List.all_eq_true.mp List.all_takeWhile x hx
    rw [hsplit] at hnone
    obtain ⟨found', rest', hmatches', hterms, hgaps⟩ := hmatches.push fun front term back htext hterm =>
      length_le_of_leadingTerm?_eq_none hnone htext hterm hrun
    rw [← hsplit] at hmatches'
    exact ⟨found', rest', hmatches', hcut.text hterms hgaps⟩
  | case4 c others hnone digit ih =>
    obtain ⟨found, rest, hmatches, hcut⟩ := ih
    rw [pieces_cons_of_none hnone, if_neg digit]
    have hrun : ∀ front term back, [c] ++ others = front ++ term ++ back → IsTerm term → [c].length ≤ front.length :=
      fun front term back htext hterm => length_le_of_leadingTerm?_eq_none hnone htext hterm (by simp)
    obtain ⟨found', rest', hmatches', hterms, hgaps⟩ := hmatches.push hrun
    exact ⟨found', rest', hmatches', hcut.text hterms hgaps⟩

theorem Matches.cutsAt (h : Matches cs found rest) : CutsAt (pieces cs) found rest := by
  obtain ⟨found', rest', h', hcut⟩ := exists_matches cs
  obtain ⟨rfl, rfl⟩ := h.unique h'
  exact hcut

end Pieces

end Tabletop.Query

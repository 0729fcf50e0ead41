import Tabletop.Proofs.Places

/-!
How a text is divided into tokens. Tokens are asked for one after the other, each time at the position that the one
before left, until there is an ending. Main statement: there are no more calls than characters and one; the spans of
the tokens lie one behind the other, and what lies between them is blank; only the digits and points that make no
number are read without being in a span, and then nothing is read behind them; and no span of a number or of a name
could be longer, except that a number may stand behind digits of a name.
-/

namespace Tabletop.Arithmetic

section Characters

variable {cs pre mid post : List Char} {i : Nat} {c : Char}

theorem mem_of_getElem?_append (h : (pre ++ mid ++ post)[i]? = some c) (hlow : pre.length ≤ i)
    (hhigh : i < pre.length + mid.length) : c ∈ mid := by
  rw [List.append_assoc, List.getElem?_append_right hlow, List.getElem?_append_left (by omega)] at h
  exact List.mem_of_getElem? h

/-- A stretch of a text whose characters are all of a kind. -/
structure Stretch (p : Char → Bool) (cs : List Char) (start stop : Nat) : Prop where
  within : stop ≤ cs.length
  all : ∀ i c, cs[i]? = some c → start ≤ i → i < stop → p c = true

instance (p : Char → Bool) (cs : List Char) (start stop : Nat) : Decidable (Stretch p cs start stop) :=
  decidable_of_iff (stop ≤ cs.length ∧ ∀ i < stop, start ≤ i → cs[i]?.all p = true)
    ⟨fun h => ⟨h.1, fun i c hc hlow hhigh => by simpa [hc] using h.2 i hhigh hlow⟩,
      fun h => ⟨h.within, fun i hhigh hlow =>
        (Option.all_eq_true p cs[i]?).mpr fun c hc => h.all i c hc hlow hhigh⟩⟩

/-- A stretch that a name could be read from. -/
structure NameAt (cs : List Char) (start stop : Nat) : Prop extends Stretch Char.isAlphanum cs start stop where
  first : ∃ c, cs[start]? = some c ∧ c.isAlpha = true

end Characters

section Calls

/-- The next token of a text at a position. -/
def nextToken (cs : List Char) (position : Nat) : Step := step position (cs.drop position)

/-- Tokens are asked for from a position on until there is an ending. -/
inductive TokenCalls (cs : List Char) : Nat → List Lexeme → Ending → Prop
  | last {position : Nat} {e : Ending} : nextToken cs position = .ending e → TokenCalls cs position [] e
  | next {position : Nat} {l : Lexeme} {rest : List Char} {ls : List Lexeme} {e : Ending} :
      nextToken cs position = .lexeme l rest → TokenCalls cs l.stop ls e → TokenCalls cs position (l :: ls) e

/-- The characters that were read last without making a token. -/
def Ending.rejected : Ending → List Char
  | fault (.number text) _ => text.toList
  | _ => []

@[simp] theorem rejected_finish (n : Nat) : (Ending.finish n).rejected = [] := rfl

@[simp] theorem rejected_unexpectedChar (c : Char) (n : Nat) : (Ending.fault (.unexpectedChar c) n).rejected = [] := rfl

@[simp] theorem rejected_number (run : List Char) (n : Nat) :
    (Ending.fault (.number (String.ofList run)) n).rejected = run := String.toList_ofList

/-- The characters from a position on are divided into spans that lie one behind the other, blanks, and those that
make no token, with which the reading ends. -/
structure Divides (cs : List Char) (position : Nat) (ls : List Lexeme) (e : Ending) : Prop where
  within : position ≤ e.position ∧ e.position ≤ cs.length
  spans : ∀ l ∈ ls, position ≤ l.start ∧ l.start < l.stop ∧ l.stop + e.rejected.length ≤ e.position
  ordered : ls.Pairwise fun l l' => l.stop ≤ l'.start
  rejected : ∃ pre post, cs = pre ++ e.rejected ++ post ∧ e.position = pre.length + e.rejected.length ∧
    position ≤ pre.length ∧ (∀ c ∈ e.rejected, Numeral.isPart c = true) ∧
      (e.rejected ≠ [] → ∀ c ∈ post.head?, Numeral.isPart c = false)
  covered : ∀ i c, cs[i]? = some c → position ≤ i → i < e.position →
    Text.isBlank c = true ∨ (∃ l ∈ ls, l.start ≤ i ∧ i < l.stop) ∨ e.position ≤ i + e.rejected.length

variable {cs rest : List Char} {position : Nat} {ls : List Lexeme} {l : Lexeme} {e : Ending}

/-- A token takes what stands at its position but for blanks, and leaves what stands behind it. -/
theorem nextToken_eq_lexeme (h : nextToken cs position = .lexeme l rest) :
    rest = cs.drop l.stop ∧ position ≤ l.start ∧ l.start < l.stop ∧ l.stop ≤ cs.length ∧
      ∀ i c, cs[i]? = some c → position ≤ i → i < l.start → Text.isBlank c = true := by
  obtain ⟨gap, run, hdrop, hgap, hmunch, hstart, hstop⟩ := Token.munch_of_step h
  have hrun := List.length_pos_iff.mpr hmunch.1.ne_nil
  have hlength := congrArg List.length hdrop
  simp only [List.length_drop, List.length_append] at hlength
  have hcs : cs = cs.take position ++ gap ++ (run ++ rest) := by
    rw [List.append_assoc, ← List.append_assoc gap, ← hdrop, List.take_append_drop]
  have htake : (cs.take position).length = position := List.length_take_of_le (by omega)
  refine ⟨?_, by omega, by omega, by omega, ?_⟩
  · have hbehind : l.stop = position + (gap ++ run).length := by rw [List.length_append]; omega
    rw [hbehind, ← List.drop_drop, hdrop, List.drop_left]
  · intro i c hc hlow hhigh
    rw [hcs] at hc
    exact hgap c (mem_of_getElem?_append hc (by omega) (by omega))

theorem divides_nil (h : nextToken cs position = .ending e) (hposition : position ≤ cs.length) :
    Divides cs position [] e := by
  have hsplit := (List.take_append_drop position cs).symm
  have htake : (cs.take position).length = position := List.length_take_of_le hposition
  have hstops := stops_of_step h
  generalize cs.take position = pre at hsplit htake
  generalize cs.drop position = rest at hsplit hstops
  subst htake
  -- Whatever the ending is, the blanks before it are skipped.
  have hdivides : ∀ gap post, Blanks gap → cs = pre ++ gap ++ e.rejected ++ post →
      e.position = (pre ++ gap).length + e.rejected.length → (∀ c ∈ e.rejected, Numeral.isPart c = true) →
      (e.rejected ≠ [] → ∀ c ∈ post.head?, Numeral.isPart c = false) → Divides cs pre.length [] e := by
    intro gap post hgap hcs hend hparts hbehind
    have hlength := congrArg List.length hcs
    simp only [List.length_append] at hend hlength
    refine ⟨by omega, List.forall_mem_nil _, .nil, ⟨pre ++ gap, post, hcs, ?_, ?_, hparts, hbehind⟩, ?_⟩
    · rw [hend, List.length_append]
    · rw [List.length_append]
      exact Nat.le_add_right _ _
    · intro i c hc hlow hhigh
      by_cases hi : i < pre.length + gap.length
      · rw [hcs, List.append_assoc] at hc
        exact .inl (hgap c (mem_of_getElem?_append hc hlow hi))
      · exact .inr (.inr (by omega))
  cases hstops with
  | finish hgap =>
    exact hdivides rest [] hgap (by simpa using hsplit) (by simp [Ending.position]) (by simp) (by simp)
  | @char gap post c hgap =>
    exact hdivides gap (c :: post) hgap (by simpa using hsplit) (by simp [Ending.position]) (by simp) (by simp)
  | @number gap run post hgap hne hparts hnone hbehind =>
    exact hdivides gap post hgap (by simpa using hsplit) (by simp [Ending.position, Nat.add_assoc])
      (by simpa using hparts) fun _ => hbehind

/-- What one call does carries over to all of them. -/
theorem TokenCalls.divides (h : TokenCalls cs position ls e) (hposition : position ≤ cs.length) :
    Divides cs position ls e := by
  induction h with
  | last hend => exact divides_nil hend hposition
  | @next position l rest ls e hnext _ ih =>
    obtain ⟨-, hstart, hspan, hstop, hblanks⟩ := nextToken_eq_lexeme hnext
    obtain ⟨hwithin, hspans, hordered, ⟨pre, post, hcs, hend, hpre, hrejected⟩, hcovered⟩ := ih hstop
    constructor
    · omega
    · refine List.forall_mem_cons.mpr ⟨by omega, fun l' hl' => ?_⟩
      have := hspans l' hl'
      omega
    · exact List.pairwise_cons.mpr ⟨fun l' hl' => (hspans l' hl').1, hordered⟩
    · exact ⟨pre, post, hcs, hend, by omega, hrejected⟩
    · intro i c hc hlow hhigh
      by_cases hbefore : i < l.start
      · exact .inl (hblanks i c hc hlow hbefore)
      · by_cases hin : i < l.stop
        · exact .inr (.inl ⟨l, List.mem_cons_self, by omega, hin⟩)
        · refine (hcovered i c hc (by omega) hhigh).imp_right (.imp_left ?_)
          rintro ⟨l', hl', hmem⟩
          exact ⟨l', List.mem_cons_of_mem l hl', hmem⟩

/-- Every token takes at least one character. -/
theorem TokenCalls.length_le (h : TokenCalls cs position ls e) (hposition : position ≤ cs.length) :
    position + ls.length ≤ e.position := by
  induction h with
  | last hend => exact (divides_nil hend hposition).within.1
  | next hnext _ ih =>
    obtain ⟨-, hstart, hspan, hstop, -⟩ := nextToken_eq_lexeme hnext
    have := ih hstop
    rw [List.length_cons]
    omega

theorem tokenCalls_iff_lexFrom : TokenCalls cs position ls e ↔ lexFrom position (cs.drop position) = ⟨ls, e⟩ := by
  constructor
  · intro h
    induction h with
    | last hend => exact lexFrom_of_ending hend
    | @next position l rest ls e hnext _ ih =>
      obtain ⟨rfl, -⟩ := nextToken_eq_lexeme hnext
      rw [lexFrom_of_lexeme hnext, ih]
  · intro h
    induction ls generalizing position with
    | nil =>
      cases hnext : nextToken cs position with
      | ending e' =>
        rw [lexFrom_of_ending hnext] at h
        cases h
        exact .last hnext
      | lexeme l rest => simp [lexFrom_of_lexeme hnext] at h
    | cons l ls ih =>
      cases hnext : nextToken cs position with
      | ending e' => simp [lexFrom_of_ending hnext] at h
      | lexeme l' rest =>
        obtain ⟨rfl, -⟩ := nextToken_eq_lexeme hnext
        rw [lexFrom_of_lexeme hnext, Lexed.mk.injEq, List.cons.injEq] at h
        obtain ⟨⟨rfl, hls⟩, he⟩ := h
        refine .next hnext (ih ?_)
        rw [← hls, ← he]

theorem tokenCalls_lex (cs : List Char) : TokenCalls cs 0 (lex cs).lexemes (lex cs).ending :=
  tokenCalls_iff_lexFrom.mpr rfl

end Calls

section Longest

variable {cs run : List Char} {position a b i : Nat} {ls : List Lexeme} {l : Lexeme} {e : Ending} {t : Token} {c : Char}

theorem Token.Writing.eq_ident (h : t.Writing run) (hc : c ∈ run) (halpha : c.isAlpha = true) :
    ∃ name, t = .ident name := by
  cases h with
  | mark hmark =>
    obtain rfl := List.mem_singleton.mp hc
    rw [ofChar?_eq_none_of_isAlpha halpha] at hmark
    cases hmark
  | number hn =>
    have hpart := parts_of_ofChars? hn c hc
    rw [not_isPart_of_isAlpha halpha] at hpart
    cases hpart
  | ident => exact ⟨_, rfl⟩

theorem Token.Writing.eq_number_or_ident (h : t.Writing run) (hc : c ∈ run) (hpart : Numeral.isPart c = true) :
    (∃ n, t = .number n) ∨ ∃ name, t = .ident name := by
  cases h with
  | mark hmark =>
    obtain rfl := List.mem_singleton.mp hc
    rw [ofChar?_eq_none_of_isPart hpart] at hmark
    cases hmark
  | number => exact .inl ⟨_, rfl⟩
  | ident => exact .inr ⟨_, rfl⟩

/-- The characters of a lexeme are the run that its token was read from. -/
theorem Lexeme.StandsIn.exists_run (h : l.StandsIn cs) :
    ∃ run, l.token.Writing run ∧ (∀ i c, cs[i]? = some c → l.start ≤ i → i < l.stop → c ∈ run) ∧
      cs[l.start]? = run.head? ∧ ∀ c, cs[l.stop]? = some c → l.token.absorbs c = false := by
  obtain ⟨pre, run, post, rfl, ⟨hwriting, hbehind⟩, hstart, hstop⟩ := h
  have hrun := List.length_pos_iff.mpr hwriting.ne_nil
  rw [List.length_append] at hstop
  refine ⟨run, hwriting, ?_, ?_, ?_⟩
  · intro i c hc hlow hhigh
    exact mem_of_getElem?_append hc (by omega) (by omega)
  · rw [hstart, List.append_assoc, List.getElem?_append_right (Nat.le_refl _), Nat.sub_self,
      List.getElem?_append_left hrun, List.head?_eq_getElem?]
  · intro c hc
    rw [hstop, List.getElem?_append_right (by rw [List.length_append]), List.length_append, Nat.sub_self,
      ← List.head?_eq_getElem?] at hc
    exact hbehind c hc

theorem Lexeme.StandsIn.stretch (h : l.StandsIn cs) {n : Numeral} (hl : l.token = .number n) :
    Stretch Numeral.isPart cs l.start l.stop := by
  obtain ⟨run, hwriting, hmem, -⟩ := h.exists_run
  rw [hl] at hwriting
  refine ⟨h.start_lt_stop.2, fun i c hc hlow hhigh => ?_⟩
  cases hwriting with
  | mark hmark => cases isMark_of_ofChar? hmark
  | number hn => exact parts_of_ofChars? hn c (hmem i c hc hlow hhigh)

theorem Lexeme.StandsIn.nameAt (h : l.StandsIn cs) {name : String} (hl : l.token = .ident name) :
    NameAt cs l.start l.stop := by
  obtain ⟨run, hwriting, hmem, hfirst, -⟩ := h.exists_run
  rw [hl] at hwriting
  cases hwriting with
  | mark hmark => cases isMark_of_ofChar? hmark
  | @ident letter run hletter hrun =>
    refine ⟨⟨h.start_lt_stop.2, fun i c hc hlow hhigh => ?_⟩, letter, hfirst, hletter⟩
    rcases List.mem_cons.mp (hmem i c hc hlow hhigh) with rfl | hc
    · simp [Char.isAlphanum, hletter]
    · exact hrun c hc

/-- A character in front of a lexeme that is not blank is in a lexeme in front of it. -/
theorem Divides.exists_before (h : Divides cs 0 ls e) (hl : l ∈ ls) (hc : cs[i]? = some c)
    (hblank : Text.isBlank c = false) (hi : i < l.start) :
    ∃ l' ∈ ls, l'.start ≤ i ∧ i < l'.stop ∧ l'.stop ≤ l.start := by
  obtain ⟨-, hspan, hstop⟩ := h.spans l hl
  rcases h.covered i c hc (Nat.zero_le i) (by omega) with hin | ⟨l', hl', hlow, hhigh⟩ | hrejected
  · rw [hblank] at hin
    cases hin
  · refine ⟨l', hl', hlow, hhigh, ?_⟩
    obtain ⟨before, after, rfl⟩ := List.append_of_mem hl
    obtain ⟨-, hafter, hbefore⟩ := List.pairwise_append.mp h.ordered
    rcases List.mem_append.mp hl' with hl' | hl'
    · exact hbefore l' hl' l List.mem_cons_self
    · rcases List.mem_cons.mp hl' with rfl | hl'
      · omega
      · have := (List.pairwise_cons.mp hafter).1 l' hl'
        omega
  · omega

/-- A stretch of the kind that continues a token does not go on behind the token. -/
theorem Stretch.le_stop {p : Char → Bool} (h : Stretch p cs a b) (hl : l.StandsIn cs)
    (habsorbs : ∀ c, l.token.absorbs c = p c) (ha : a ≤ l.stop) : b ≤ l.stop := by
  by_contra hlt
  obtain ⟨-, -, -, -, hbehind⟩ := hl.exists_run
  have hc := List.getElem?_eq_getElem (show l.stop < cs.length from (Nat.not_le.mp hlt).trans_le h.within)
  have hin := h.all _ _ hc ha (Nat.not_le.mp hlt)
  rw [← habsorbs, hbehind _ hc] at hin
  cases hin

/-- A name could not be longer. -/
theorem Divides.eq_of_nameAt (h : Divides cs 0 ls e) (hstands : ∀ l ∈ ls, l.StandsIn cs) (hl : l ∈ ls) {name : String}
    (hname : l.token = .ident name) (hab : NameAt cs a b) (ha : a ≤ l.start) (hb : l.stop ≤ b) :
    a = l.start ∧ b = l.stop := by
  have hspan := (hstands l hl).start_lt_stop
  have hend : ∀ l' ∈ ls, (∃ name, l'.token = .ident name) → a ≤ l'.stop → b ≤ l'.stop := by
    rintro l' hl' ⟨name', hname'⟩
    exact hab.le_stop (hstands l' hl') fun c => by rw [hname', Token.absorbs]
  refine ⟨?_, Nat.le_antisymm (hend l hl ⟨name, hname⟩ (by omega)) hb⟩
  by_contra hne
  -- The letter at the front of the stretch would belong to a name before this one, and end with it.
  obtain ⟨c, hc, halpha⟩ := hab.first
  have hblank : Text.isBlank c = false := by
    rw [isAlpha_iff_toNat] at halpha
    exact not_isBlank_of_visible (by omega)
  obtain ⟨l', hl', hlow, hhigh, hbefore⟩ := h.exists_before hl hc hblank (by omega)
  obtain ⟨run, hwriting, hmem, -⟩ := (hstands l' hl').exists_run
  have hle := hend l' hl' (hwriting.eq_ident (hmem _ _ hc hlow hhigh) halpha) (by omega)
  omega

/-- A number could not be longer but for digits of a name in front of it. -/
theorem Divides.eq_of_stretch (h : Divides cs 0 ls e) (hstands : ∀ l ∈ ls, l.StandsIn cs) (hl : l ∈ ls) {n : Numeral}
    (hnumber : l.token = .number n) (hab : Stretch Numeral.isPart cs a b) (ha : a ≤ l.start) (hb : l.stop ≤ b) :
    (a = l.start ∨ ∃ l' ∈ ls, (∃ name, l'.token = .ident name) ∧ l'.start < a ∧ l'.stop = l.start) ∧ b = l.stop := by
  have hspan := (hstands l hl).start_lt_stop
  have hend : ∀ l' ∈ ls, (∃ n, l'.token = .number n) → a ≤ l'.stop → b ≤ l'.stop := by
    rintro l' hl' ⟨n', hn'⟩
    exact hab.le_stop (hstands l' hl') fun c => by rw [hn', Token.absorbs]
  refine ⟨?_, Nat.le_antisymm (hend l hl ⟨n, hnumber⟩ (by omega)) hb⟩
  by_cases hne : a = l.start
  · exact .inl hne
  · -- What stands right before the number is in a token that ends there, and no number does.
    have hc := List.getElem?_eq_getElem (show l.start - 1 < cs.length by omega)
    have hpart := hab.all _ _ hc (by omega) (by omega)
    have hblank : Text.isBlank cs[l.start - 1] = false := by
      rw [isPart_iff_toNat] at hpart
      exact not_isBlank_of_visible (by omega)
    obtain ⟨l', hl', hlow, hhigh, hbefore⟩ := h.exists_before hl hc hblank (by omega)
    obtain ⟨run, hwriting, hmem, -⟩ := (hstands l' hl').exists_run
    rcases hwriting.eq_number_or_ident (hmem _ _ hc hlow hhigh) hpart with hn | ⟨name, hname⟩
    · have hle := hend l' hl' hn (by omega)
      omega
    · refine .inr ⟨l', hl', ⟨name, hname⟩, ?_, by omega⟩
      -- The name begins with a letter, which is in no number.
      by_contra hle
      obtain ⟨letter, hletter, halpha⟩ := ((hstands l' hl').nameAt hname).first
      have hin := hab.all _ _ hletter (by omega) (by omega)
      rw [not_isPart_of_isAlpha halpha] at hin
      cases hin

end Longest

/-- The positions before the first call and behind each call. -/
def Lexed.positions (text : Lexed) : List Nat := 0 :: (text.lexemes.map Lexeme.stop ++ [text.ending.position])

theorem Divides.positions {cs : List Char} {text : Lexed} (h : Divides cs 0 text.lexemes text.ending) :
    text.positions.Pairwise (· ≤ ·) ∧ ∀ position ∈ text.positions, position ≤ cs.length := by
  have hends : ∀ l ∈ text.lexemes, l.stop ≤ text.ending.position := by
    intro l hl
    have := h.spans l hl
    omega
  constructor
  · refine List.pairwise_cons.mpr ⟨fun _ _ => Nat.zero_le _, ?_⟩
    refine List.pairwise_append.mpr ⟨?_, List.pairwise_singleton _ _, ?_⟩
    · refine List.pairwise_map.mpr (h.ordered.imp_of_mem ?_)
      intro l l' _ hl' hbefore
      have := h.spans l' hl'
      omega
    · simpa using hends
  · simp only [Lexed.positions, List.forall_mem_cons, List.forall_mem_append, List.forall_mem_map]
    have hwithin := h.within
    exact ⟨Nat.zero_le _, fun l hl => (hends l hl).trans hwithin.2, hwithin.2, List.forall_mem_nil _⟩

/-- The calls for the tokens of a text come to one ending, after no more calls than it has characters and one. Their
positions do not decrease and lie in the text. The spans of the tokens are not empty and lie one behind the other, and
all other characters before the last position are blank or belong to the run of digits and points that makes no
number, behind all spans. A name could not be longer; a number could only if digits of a name stand in front of it. If
the ending is that of the text, every character is blank or in a span, and one more call at this position comes to the
same ending. -/
theorem lex_divides (cs : List Char) :
    (∀ ls e, TokenCalls cs 0 ls e ↔ lex cs = ⟨ls, e⟩) ∧ (lex cs).lexemes.length + 1 ≤ cs.length + 1 ∧
    ((lex cs).positions.Pairwise (· ≤ ·) ∧ ∀ position ∈ (lex cs).positions, position ≤ cs.length) ∧
    Divides cs 0 (lex cs).lexemes (lex cs).ending ∧
    (∀ l ∈ (lex cs).lexemes, ∀ name, l.token = .ident name → NameAt cs l.start l.stop ∧
      ∀ a b, NameAt cs a b → a ≤ l.start → l.stop ≤ b → a = l.start ∧ b = l.stop) ∧
    (∀ l ∈ (lex cs).lexemes, ∀ n, l.token = .number n → Stretch Numeral.isPart cs l.start l.stop ∧
      ∀ a b, Stretch Numeral.isPart cs a b → a ≤ l.start → l.stop ≤ b →
        (a = l.start ∨ ∃ l' ∈ (lex cs).lexemes, (∃ name, l'.token = .ident name) ∧
          l'.start < a ∧ l'.stop = l.start) ∧ b = l.stop) ∧
    ∀ n, (lex cs).ending = .finish n → n = cs.length ∧ nextToken cs n = .ending (.finish n) ∧
      ∀ i c, cs[i]? = some c → Text.isBlank c = true ∨ ∃ l ∈ (lex cs).lexemes, l.start ≤ i ∧ i < l.stop := by
  have hcalls := tokenCalls_lex cs
  have hdivides := hcalls.divides (Nat.zero_le _)
  have hstands : ∀ l ∈ (lex cs).lexemes, l.StandsIn cs := fun l hl => standsIn_of_mem hl
  refine ⟨fun _ _ => tokenCalls_iff_lexFrom, ?_, hdivides.positions, hdivides, ?_, ?_, ?_⟩
  · have hlength := hcalls.length_le (Nat.zero_le _)
    have hwithin := hdivides.within
    omega
  · intro l hl name hname
    exact ⟨(hstands l hl).nameAt hname, fun a b hab ha hb => hdivides.eq_of_nameAt hstands hl hname hab ha hb⟩
  · intro l hl n hn
    exact ⟨(hstands l hl).stretch hn, fun a b hab ha hb => hdivides.eq_of_stretch hstands hl hn hab ha hb⟩
  · intro n hn
    have hlex : lexFrom 0 cs = ⟨(lex cs).lexemes, .finish n⟩ := by rw [← hn]; rfl
    obtain rfl : n = cs.length := by simpa using finish_eq hlex
    refine ⟨rfl, ?_, ?_⟩
    · rw [nextToken, List.drop_length]
      exact step_of_blanks cs.length blanks_nil
    · intro i c hc
      have hi : i < cs.length := (List.getElem?_eq_some_iff.mp hc).1
      have hcovered := hdivides.covered i c hc (Nat.zero_le i)
      rw [hn] at hcovered
      refine (hcovered hi).imp_right (Or.resolve_right · ?_)
      rw [rejected_finish, List.length_nil, Ending.position]
      omega

/-- The number behind a name would be longer if the digit of the name were not taken already. -/
theorem lex_divides_digit_of_name :
    (lex "a1.5".toList).lexemes = [⟨.ident "a1", 0, 2⟩, ⟨.number ⟨5, 1⟩, 2, 4⟩] ∧
      Stretch Numeral.isPart "a1.5".toList 1 4 ∧
        ∃ l' ∈ (lex "a1.5".toList).lexemes, (∃ name, l'.token = .ident name) ∧ l'.start < 1 ∧ l'.stop = 2 := by
  have hlexemes : (lex "a1.5".toList).lexemes = [⟨.ident "a1", 0, 2⟩, ⟨.number ⟨5, 1⟩, 2, 4⟩] := by decide +kernel
  have hstretch : Stretch Numeral.isPart "a1.5".toList 1 4 := by decide
  obtain ⟨-, -, -, -, -, hnumbers, -⟩ := lex_divides "a1.5".toList
  obtain ⟨-, hlongest⟩ := hnumbers ⟨.number ⟨5, 1⟩, 2, 4⟩ (by rw [hlexemes]; decide) _ rfl
  obtain ⟨hstart, -⟩ := hlongest 1 4 hstretch (by decide) (by decide)
  exact ⟨hlexemes, hstretch, hstart.resolve_left (by decide)⟩

/-- A point alone is read without being in a span, and a number need not be the longest stretch of its kind. -/
theorem lex_point_not_covered :
    (¬∀ i c, ".".toList[i]? = some c → i < (lex ".".toList).ending.position →
      Text.isBlank c = true ∨ ∃ l ∈ (lex ".".toList).lexemes, l.start ≤ i ∧ i < l.stop) ∧
    ¬∀ l ∈ (lex "a1.5".toList).lexemes, ∀ n, l.token = .number n →
      ∀ a b, Stretch Numeral.isPart "a1.5".toList a b → a ≤ l.start → l.stop ≤ b → a = l.start ∧ b = l.stop := by
  constructor
  · intro h
    have hlex : lex ".".toList = ⟨[], .fault (.number ".") 1⟩ := by decide +kernel
    rw [hlex] at h
    exact absurd (h 0 '.' rfl (by decide)) (by decide)
  · intro h
    have hnumber : ⟨.number ⟨5, 1⟩, 2, 4⟩ ∈ (lex "a1.5".toList).lexemes := by decide +kernel
    have hstretch : Stretch Numeral.isPart "a1.5".toList 1 4 := by decide
    exact absurd (h _ hnumber _ rfl 1 4 hstretch (by decide) (by decide)).1 (by decide)

end Tabletop.Arithmetic

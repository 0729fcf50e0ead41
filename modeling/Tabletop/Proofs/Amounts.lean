import Tabletop.Proofs.Blocks
import Tabletop.Proofs.Sentences
import Tabletop.Proofs.Substitution

/-!
Pools as operands of the text around them. A query may be read with each of its pools as an operand, and the text
between them by itself; or totals may be put in the place of the pools, and all of the text read anew. Main
statement: if an answer has a total, the second reading is the first, but that a point directly beside a pool joins
the total to what is on its other side. Nothing else than points, marks and blanks can stand directly beside a pool.
-/

namespace Tabletop.Query

open Arithmetic

/-- The number that an operand stands for. -/
def Operand.numeral : Operand Numeral → Numeral
  | literal n => n
  | dice n => n

/-- `ReadsAs A ss ps totals`: the terminals are those of the pieces if stretches with the property `A` are
operands, each as a whole, and the text between them is read by itself. What a stretch stands for is the number that
is written when the totals are put in the place of its pools. -/
inductive ReadsAs (A : List Piece → Prop) : List (Symbol (Operand Numeral)) → List Piece → List Int → Prop
  | text {ts : List Token} {ps : List Piece} : pools ps = [] → Spells ts (ps.flatMap Piece.chars) →
      ReadsAs A (ts.map (Token.symbol .literal)) ps []
  | operand {ts : List Token} {ss : List (Symbol (Operand Numeral))} {ps qs stretch : List Piece}
      {inner totals : List Int} {n : Numeral} :
      pools ps = [] → Spells ts (ps.flatMap Piece.chars) → A stretch → inner.length = (pools stretch).length →
        Numeral.ofChars? (splice stretch inner) = some n → ReadsAs A ss qs totals →
          ReadsAs A (ts.map (Token.symbol .literal) ++ .operand (.dice n) :: ss) (ps ++ (stretch ++ qs))
            (inner ++ totals)

/-- The pieces are a sentence, nested as deeply as may be, and the total is its value. -/
def IsSentence (A : List Piece → Prop) (ps : List Piece) (totals : List Int) (total : Float) : Prop :=
  ∃ d : Derivation (Operand Numeral) .expression, d.nesting ≤ maxNesting ∧ ReadsAs A d.symbols ps totals ∧
    ∃ x, d.value (fun o => o.numeral.toFloat) = .ok x ∧ unsignedZero x = total

/-- A point stands directly before or behind a pool. -/
def PointBeside (ps : List Piece) : Prop :=
  ∃ written pool, [.text ['.'], .dice written pool] <:+: ps ∨ [.dice written pool, .text ['.']] <:+: ps

theorem pools_append (ps qs : List Piece) : pools (ps ++ qs) = pools ps ++ pools qs := List.filterMap_append

section Readings

variable {A : List Piece → Prop} {ss : List (Symbol (Operand Numeral))} {ts : List Token} {t : Token}
  {ps qs front : List Piece} {totals : List Int} {cs gap run rest : List Char}

/-- A token in front of text that is read by itself, or in front of an operand. -/
theorem ReadsAs.cons (h : ReadsAs A ss ps totals) (hblocks : Blocks false ps totals rest) (hgap : Blanks gap)
    (hmunch : t.Munch run rest) (hpools : pools front = []) (hchars : front.flatMap Piece.chars = gap ++ run) :
    ReadsAs A (t.symbol .literal :: ss) (front ++ ps) totals := by
  cases h with
  | @text ts ps hps hspells =>
    rw [(hblocks.of_pools_eq_nil hps).2] at hmunch
    refine @ReadsAs.text A (t :: ts) _ ?_ ?_
    · rw [pools_append, hpools, hps, List.append_nil]
    · rw [List.flatMap_append, hchars]
      exact .terminal hgap hmunch hspells
  | @operand ts ss ps qs stretch inner totals n hps hspells ha hlength hn hqs =>
    obtain ⟨us, vs, xs, ys, -, rfl, hxs, -⟩ := hblocks.append_inv
    rw [(hxs.of_pools_eq_nil hps).2] at hmunch
    have hmunch' : t.Munch run (ps.flatMap Piece.chars) :=
      ⟨hmunch.1, fun c hc => hmunch.2 c (List.mem_head?_append_of_mem_head? hc)⟩
    rw [← List.append_assoc]
    refine @ReadsAs.operand A (t :: ts) _ _ _ _ _ _ _ ?_ ?_ ha hlength hn hqs
    · rw [pools_append, hpools, hps, List.append_nil]
    · rw [List.flatMap_append, hchars]
      exact .terminal hgap hmunch' hspells

/-- What is behind a token with a digit in it begins with none. -/
theorem not_isDigit_behind (h : t.Munch run rest) {x : Char} (hx : x ∈ run) (hdigit : x.isDigit = true) :
    ∀ y ∈ rest.head?, y.isDigit = false := by
  intro y hy
  have hnot := h.2 y hy
  apply Bool.eq_false_iff.mpr
  intro hdigit'
  cases h.1 with
  | mark ht =>
    rw [← List.mem_singleton.mp hx, ofChar?_eq_none_of_isPart (isPart_of_isDigit hdigit)] at ht
    cases ht
  | number =>
    rw [Token.absorbs, isPart_of_isDigit hdigit'] at hnot
    cases hnot
  | ident => simp [Token.absorbs, Char.isAlphanum, hdigit'] at hnot

/-- A token with a digit in it is a number, unless a name has one. -/
theorem exists_number (h : t.Writing run) {x : Char} (hx : x ∈ run) (hdigit : x.isDigit = true)
    (hname : ∀ name, t = .ident name → ∀ c ∈ name.toList, c.isDigit = false) :
    ∃ n, t = .number n ∧ Numeral.ofChars? run = some n := by
  cases h with
  | mark ht =>
    rw [← List.mem_singleton.mp hx, ofChar?_eq_none_of_isPart (isPart_of_isDigit hdigit)] at ht
    cases ht
  | number hn => exact ⟨_, rfl, hn⟩
  | @ident c run hc hrun =>
    have hlower : x ∈ (c :: run).map Char.toLower := List.mem_map.mpr ⟨x, hx, toLower_of_isDigit hdigit⟩
    have hnot := hname _ rfl x (by rwa [String.toList_ofList])
    rw [hdigit] at hnot
    cases hnot

/-- The tokens of a text are those of its pieces, but that numbers with pools in them are amounts. -/
theorem exists_readsAs (h : Spells ts cs) (hblocks : Blocks false ps totals cs)
    (hnames : ∀ name, .ident name ∈ ts → ∀ c ∈ name.toList, c.isDigit = false) :
    ∃ ss, ReadsAs Amount ss ps totals ∧ List.Forall₂ (Token.Relabels Operand.numeral) ts ss := by
  have hblank {gap : List Char} {ps : List Piece} {totals : List Int} (hgap : Blanks gap)
      (hps : Blocks false ps totals gap) : pools ps = [] := by
    by_contra hne
    obtain ⟨x, hx, hdigit⟩ := hps.exists_digit hne
    exact not_blanks_of_mem hdigit hx hgap
  induction h generalizing ps totals with
  | @finish gap hgap =>
    have hps := hblank hgap hblocks
    obtain ⟨rfl, rfl⟩ := hblocks.of_pools_eq_nil hps
    exact ⟨_, @ReadsAs.text Amount [] ps hps (.finish hgap), .nil⟩
  | @terminal gap run rest t ts hgap hmunch hrest ih =>
    -- Neither the blanks nor the token end between two digits.
    rw [List.append_assoc] at hblocks
    obtain ⟨blanks, more, us, vs, rfl, rfl, hblanks, hmore⟩ := hblocks.split fun x hx _ _ hdigit =>
      absurd hgap (not_blanks_of_mem hdigit (List.mem_of_mem_getLast? hx))
    obtain ⟨stretch, others, inner, outer, rfl, rfl, hstretch, hothers⟩ := hmore.split fun x hx y hy hdigit =>
      not_isDigit_behind hmunch (List.mem_of_mem_getLast? hx) hdigit y hy
    obtain ⟨ss, hss, hlabels⟩ := ih hothers fun name hname => hnames name (List.mem_cons_of_mem t hname)
    have hgaps := hblank hgap hblanks
    obtain ⟨rfl, rfl⟩ := hblanks.of_pools_eq_nil hgaps
    by_cases hpools : pools stretch = []
    · obtain ⟨rfl, rfl⟩ := hstretch.of_pools_eq_nil hpools
      refine ⟨_, ?_, .cons (@Token.relabels_symbol _ Operand.numeral .literal (fun _ => rfl) t) hlabels⟩
      rw [← List.append_assoc]
      apply hss.cons hothers hgap hmunch
      · rw [pools_append, hgaps, hpools, List.append_nil]
      · rw [List.flatMap_append]
    · obtain ⟨x, hx, hdigit⟩ := hstretch.exists_digit hpools
      obtain ⟨n, rfl, hn⟩ := exists_number hmunch.1 hx hdigit fun name hname =>
        hnames name (hname ▸ List.mem_cons_self)
      obtain ⟨hrun, hlength⟩ := hstretch.eq_splice
      rw [hrun] at hn
      exact ⟨_, @ReadsAs.operand Amount [] ss blanks others stretch inner outer n hgaps (.finish hgap)
        (hstretch.amount (hrun ▸ hn) hpools) hlength hn hss, .cons (.operand (Operand.dice n)) hlabels⟩

/-- A text begins with a blank or a mark if its first token is a mark. -/
theorem separator_of_head?_spells (h : Spells ts cs) (hts : ∀ t ∈ ts.head?, t.isMark = true) :
    ∀ c ∈ cs.head?, IsSeparator c :=
  h.separator_of_head? fun t ht _ _ hmunch => hmunch.1.separator (hts t ht)

/-- It ends with one if its last token is a mark. -/
theorem separator_of_getLast?_spells (h : Spells ts cs) (hts : ∀ t ∈ ts.getLast?, t.isMark = true) :
    ∀ c ∈ cs.getLast?, IsSeparator c := by
  induction h with
  | finish hgap => exact fun c hc => .inl (hgap c (List.mem_of_mem_getLast? hc))
  | @terminal gap run rest t ts hgap hmunch hrest ih =>
    have hlast : ∀ u ∈ ts.getLast?, u.isMark = true := fun u hu =>
      hts u (by rw [List.getLast?_cons, Option.mem_def.mp hu]; rfl)
    rcases eq_or_ne rest [] with rfl | hne
    · have hnil : ts = [] := List.eq_nil_of_length_eq_zero (Nat.le_zero.mp (Spells.length_le hrest))
      subst hnil
      obtain ⟨c, rfl, hc⟩ := hmunch.1.separator (hts t rfl)
      intro x hx
      rw [List.append_nil, List.getLast?_append_cons] at hx
      cases hx
      exact hc
    · rw [List.getLast?_append_of_ne_nil _ hne]
      exact ih hlast

theorem ne_nil_of_spells (h : Spells ts cs) (hts : ts ≠ []) : cs ≠ [] := by
  rintro rfl
  exact hts (List.eq_nil_of_length_eq_zero (Nat.le_zero.mp (Spells.length_le h)))

theorem ReadsAs.separator_of_head? (h : ReadsAs A ss ps totals) (hss : ∀ s ∈ ss.head?, s.isMark = true) :
    ∀ c ∈ (ps.flatMap Piece.chars).head?, IsSeparator c := by
  cases h with
  | @text ts ps hps hspells =>
    apply separator_of_head?_spells hspells
    intro t ht
    have hmark := hss (t.symbol .literal) (by rw [List.head?_map, Option.mem_def.mp ht]; rfl)
    rwa [Token.isMark_symbol] at hmark
  | @operand ts ss ps qs stretch inner totals n hps hspells ha hlength hn hqs =>
    cases ts with
    | nil => cases hss _ rfl
    | cons t ts =>
      have hne := ne_nil_of_spells hspells (List.cons_ne_nil t ts)
      rw [List.flatMap_append, List.head?_append_of_ne_nil _ hne]
      apply separator_of_head?_spells hspells
      intro u hu
      cases hu
      have hmark := hss (t.symbol .literal) rfl
      rwa [Token.isMark_symbol] at hmark

/-- In a sentence only blanks and marks stand directly before and behind the operands. So each pool lies in a
stretch between them, before which there is some text if the sentence begins with a mark. -/
theorem ReadsAs.exists_stretch (h : ReadsAs A ss ps totals) (hss : Apart ss) {before after : List Piece}
    {written : List Char} {pool : Pool} (hps : ps = before ++ .dice written pool :: after) :
    ∃ front left right back, before = front ++ left ∧ after = right ++ back ∧
      A (left ++ .dice written pool :: right) ∧
        (∀ c ∈ (front.flatMap Piece.chars).getLast?, IsSeparator c) ∧
          (∀ c ∈ (back.flatMap Piece.chars).head?, IsSeparator c) ∧
            ((∀ s ∈ ss.head?, s.isMark = true) → front.flatMap Piece.chars ≠ []) := by
  induction h generalizing before with
  | @text ts ps hpools =>
    rw [hps, pools_append] at hpools
    cases (List.append_eq_nil_iff.mp hpools).2
  | @operand ts ss ps qs stretch inner totals n hpools hspells ha hlength hn hqs ih =>
    obtain ⟨-, hrest, hbefore⟩ := List.isChain_append.mp hss
    obtain ⟨hbehind, hss'⟩ := List.isChain_cons.mp hrest
    have hlast : ∀ t ∈ ts.getLast?, t.isMark = true := by
      intro t ht
      have hmark := hbefore (t.symbol .literal) (by rw [List.getLast?_map, Option.mem_def.mp ht]; rfl) _ rfl
      rw [Token.isMark_symbol] at hmark
      exact hmark.resolve_right nofun
    have hhead : ∀ s ∈ ss.head?, s.isMark = true := fun s hs => (hbehind s hs).resolve_left nofun
    rcases append_cons_eq_append hps.symm with ⟨es, rfl, -⟩ | ⟨es, rfl, hes⟩
    · rw [pools_append] at hpools
      cases (List.append_eq_nil_iff.mp hpools).2
    · rcases append_cons_eq_append hes.symm with ⟨fs, rfl, rfl⟩ | ⟨fs, rfl, hfs⟩
      · refine ⟨ps, es, fs, qs, rfl, rfl, ha, separator_of_getLast?_spells hspells hlast,
          hqs.separator_of_head? hhead, fun hmark => ?_⟩
        apply ne_nil_of_spells hspells
        rintro rfl
        cases hmark _ rfl
      · obtain ⟨front, left, right, back, rfl, rfl, ha', hfront, hback, hne⟩ := ih hss' hfs
        have hne' := hne hhead
        refine ⟨ps ++ (stretch ++ front), left, right, back, ?_, rfl, ha', ?_, hback, fun _ => ?_⟩
        · simp only [List.append_assoc]
        · rw [List.flatMap_append, List.flatMap_append, ← List.append_assoc, List.getLast?_append_of_ne_nil _ hne']
          exact hfront
        · rw [List.flatMap_append, List.flatMap_append]
          simp [hne']

theorem PointBeside.of_infix (h : PointBeside qs) (hqs : qs <:+: ps) : PointBeside ps := by
  obtain ⟨written, pool, h⟩ := h
  exact ⟨written, pool, h.imp (·.trans hqs) (·.trans hqs)⟩

/-- Without points beside them all pools stand by themselves. -/
theorem Amount.lone_of_not_pointBeside (h : Amount ps) (hps : ¬PointBeside ps) : Lone ps := by
  cases h with
  | lone written pool => exact .dice written pool
  | @joined left right hleft hright hpools =>
    exfalso
    apply hps
    cases hleft with
    | dice written pool => exact ⟨written, pool, .inr (List.prefix_append [_, _] right).isInfix⟩
    | empty | digits =>
      cases hright with
      | dice written pool => exact ⟨written, pool, .inl (List.suffix_append _ _).isInfix⟩
      | empty | digits => exact absurd rfl hpools

theorem ReadsAs.lone (h : ReadsAs Amount ss ps totals) (hps : ¬PointBeside ps) : ReadsAs Lone ss ps totals := by
  induction h with
  | text hpools hspells => exact .text hpools hspells
  | @operand ts ss ps qs stretch inner totals n hpools hspells hstretch hlength hn _ ih =>
    have hinfix : stretch <:+: ps ++ (stretch ++ qs) := ⟨ps, qs, List.append_assoc ..⟩
    have hsuffix : qs <:+: ps ++ (stretch ++ qs) := ⟨ps ++ stretch, [], by simp⟩
    exact .operand hpools hspells (hstretch.lone_of_not_pointBeside fun h => hps (h.of_infix hinfix)) hlength hn
      (ih fun h => hps (h.of_infix hsuffix))

theorem not_isSeparator_point : ¬IsSeparator '.' := by
  intro h
  cases h.not_isPart

theorem Side.length_le (h : Side ps) : ps.length ≤ 1 := by
  cases h <;> simp

theorem Lone.length_le (h : Lone ps) : ps.length ≤ 1 := by
  cases h
  exact Nat.le_refl 1

theorem eq_nil_of_length_le {left right : List Piece} {p : Piece} (h : (left ++ p :: right).length ≤ 1) :
    left = [] ∧ right = [] := by
  rw [List.length_append, List.length_cons] at h
  exact ⟨List.eq_nil_of_length_eq_zero (by omega), List.eq_nil_of_length_eq_zero (by omega)⟩

/-- Where all pools stand by themselves in a sentence, there are no points beside them. -/
theorem ReadsAs.not_pointBeside (h : ReadsAs Lone ss ps totals) (hss : Apart ss) : ¬PointBeside ps := by
  intro ⟨written, pool, hpoint⟩
  apply not_isSeparator_point
  rcases hpoint with ⟨before, after, hps⟩ | ⟨before, after, hps⟩
  · have hsplit : ps = (before ++ [.text ['.']]) ++ .dice written pool :: after := by simp [← hps]
    obtain ⟨front, left, right, back, hbefore, -, hdie, hfront, -⟩ := h.exists_stretch hss hsplit
    rw [(eq_nil_of_length_le hdie.length_le).1, List.append_nil] at hbefore
    apply hfront
    simp [← hbefore, Piece.chars]
  · have hsplit : ps = before ++ .dice written pool :: .text ['.'] :: after := by simp [← hps]
    obtain ⟨front, left, right, back, -, hafter, hdie, -, hback, -⟩ := h.exists_stretch hss hsplit
    rw [(eq_nil_of_length_le hdie.length_le).2, List.nil_append] at hafter
    apply hback
    simp [← hafter, Piece.chars]

/-- Inside of an amount only a point can stand directly beside a pool. -/
theorem Amount.beside {left right : List Piece} {written : List Char} {pool : Pool}
    (h : Amount (left ++ .dice written pool :: right)) :
    (left = [] ∨ ∃ more, left = more ++ [.text ['.']]) ∧ (right = [] ∨ ∃ more, right = .text ['.'] :: more) := by
  generalize hstretch : left ++ .dice written pool :: right = stretch at h
  cases h with
  | lone written' pool' =>
    obtain ⟨hleft, hright⟩ := eq_nil_of_length_le (Nat.le_of_eq (congrArg List.length hstretch))
    exact ⟨.inl hleft, .inl hright⟩
  | @joined left' right' hleft hright _ =>
    rcases append_cons_eq_append hstretch with ⟨es, rfl, rfl⟩ | ⟨es, rfl, hes⟩
    · obtain ⟨rfl, rfl⟩ := eq_nil_of_length_le hleft.length_le
      exact ⟨.inl rfl, .inr ⟨right', rfl⟩⟩
    · cases es with
      | nil => cases hes
      | cons e es =>
        obtain ⟨rfl, rfl⟩ := List.cons.inj hes
        obtain ⟨rfl, rfl⟩ := eq_nil_of_length_le hright.length_le
        exact ⟨.inr ⟨left', rfl⟩, .inl rfl⟩

/-- What stands directly beside a pool in a sentence. -/
theorem ReadsAs.beside (h : ReadsAs Amount ss ps totals) (hss : Apart ss) {before after : List Piece}
    {written : List Char} {pool : Pool} (hps : ps = before ++ .dice written pool :: after) :
    (∀ c ∈ (before.flatMap Piece.chars).getLast?, c = '.' ∨ IsSeparator c) ∧
      ∀ c ∈ (after.flatMap Piece.chars).head?, c = '.' ∨ IsSeparator c := by
  obtain ⟨front, left, right, back, rfl, rfl, hdie, hfront, hback, -⟩ := h.exists_stretch hss hps
  obtain ⟨hleft, hright⟩ := hdie.beside
  constructor
  · rcases hleft with rfl | ⟨more, rfl⟩
    · rw [List.append_nil]
      exact fun c hc => .inr (hfront c hc)
    · intro c hc
      simp [Piece.chars] at hc
      exact .inl hc.symm
  · rcases hright with rfl | ⟨more, rfl⟩
    · exact fun c hc => .inr (hback c hc)
    · intro c hc
      simp [Piece.chars] at hc
      exact .inl hc.symm

/-- No tokens are written in other digits than ASCII ones. -/
theorem isDigit_of_spells (h : Spells ts cs) {c : Char} (hc : c ∈ cs) (hdigit : Text.isDecimalDigit c = true) :
    c.isDigit = true := by
  have hseparator (hc : IsSeparator c) : c.isDigit = true := by
    rw [hc.not_isDecimalDigit] at hdigit
    cases hdigit
  have halpha (hc : c.isAlpha = true) : c.isDigit = true := by
    rw [not_isDecimalDigit_of_isAlpha hc] at hdigit
    cases hdigit
  induction h with
  | finish hgap => exact hseparator (.inl (hgap c hc))
  | @terminal gap run rest t ts hgap hmunch _ ih =>
    rcases List.mem_append.mp hc with hc | hc
    · rcases List.mem_append.mp hc with hc | hc
      · exact hseparator (.inl (hgap c hc))
      · cases hmunch.1 with
        | mark ht =>
          obtain rfl := List.mem_singleton.mp hc
          exact hseparator (.inr (by rw [ht]; rfl))
        | number hn =>
          have hpart := parts_of_ofChars? hn c hc
          have hne : c ≠ '.' := by
            rintro rfl
            revert hdigit
            decide
          simpa [Numeral.isPart, hne] using hpart
        | @ident first run hfirst hrun =>
          rcases List.mem_cons.mp hc with rfl | hc
          · exact halpha hfirst
          · have halphanum := hrun c hc
            rw [Char.isAlphanum, Bool.or_eq_true] at halphanum
            exact halphanum.elim halpha id
    · exact ih hc

theorem IsSentence.lone {total : Float} (h : IsSentence Amount ps totals total) (hps : ¬PointBeside ps) :
    IsSentence Lone ps totals total := by
  obtain ⟨d, hnesting, hreads, hvalue⟩ := h
  exact ⟨d, hnesting, hreads.lone hps, hvalue⟩

/-- A text with totals that has a value is a sentence in which each pool belongs to one operand. -/
theorem isSentence_of_evaluate {x : Float} (h : evaluate (String.ofList (splice (pieces cs) totals)) = .ok x)
    (htotals : ∀ t ∈ totals, 0 ≤ t) (hlength : totals.length = (pools (pieces cs)).length) :
    IsSentence Amount (pieces cs) totals x := by
  obtain ⟨tree, hparse, hx⟩ := exists_of_bind_eq_ok h
  rw [String.toList_ofList] at hparse
  obtain ⟨d, hspells, hnesting, rfl⟩ := spells_of_parse hparse
  have hvalue : ∃ y, d.value Numeral.toFloat = .ok y ∧ unsignedZero y = x := by
    rw [← d.evaluate_tree]
    change ∃ y, d.tree.evaluate = .ok y ∧ _
    cases htree : d.tree.evaluate with
    | ok y =>
      rw [htree] at hx
      exact ⟨y, rfl, Except.ok.inj hx⟩
    | error fault =>
      rw [htree] at hx
      cases hx
  obtain ⟨y, hy, hyx⟩ := hvalue
  have hblocks : Blocks false (pieces cs) totals (splice (pieces cs) totals) :=
    blocks_splice (fun c hc hdigit => isDigit_of_spells hspells hc hdigit) htotals hlength nofun
  obtain ⟨ss, hss, hlabels⟩ := exists_readsAs hspells hblocks fun name hname =>
    not_isDigit_of_isSome (d.isSome_of_value hy (d.mem_symbols_of_mem_tokens hname))
  obtain ⟨d', rfl, hd'⟩ := d.exists_relabelled hlabels
  exact ⟨d', hd'.nesting_eq.trans_le hnesting, hss, y, hd'.value_eq.trans hy, hyx⟩

end Readings

section Answers

variable {σ : Type} [DieSource σ] {query : String} {mode : Scoring} {tray after : Tray σ} {r : Result Roll}

/-- The answer with a total to a query with dice, without a repetition mark and with no Fate dice. The query is a
sentence of which the total is the value, and operands in it are the pools, each with what a point directly beside
it joins to it. Directly beside a pool there are only blanks, marks and points. So neither digits nor letters are
joined to what is rolled, and the query is a sentence in which the pools by themselves are operands just if there
is no point directly beside any of them. -/
theorem answer_reads (hmarks : ∀ c ∈ query.toList, isRepetitionMark c = false)
    (hfate : hasFateMarker query.toList = false) (hpools : pools (pieces query.toList) ≠ []) (hmode : mode ≠ .fate)
    (h : answer evaluate query mode tray = (.ok r, after)) :
    IsSentence Amount (pieces query.toList) (r.entries.map Roll.total) r.total ∧
    (∀ before written pool behind, pieces query.toList = before ++ .dice written pool :: behind →
      (∀ c ∈ (before.flatMap Piece.chars).getLast?, c = '.' ∨ IsSeparator c) ∧
        ∀ c ∈ (behind.flatMap Piece.chars).head?, c = '.' ∨ IsSeparator c) ∧
    (IsSentence Lone (pieces query.toList) (r.entries.map Roll.total) r.total ↔
      ¬PointBeside (pieces query.toList)) := by
  have htext : rolledText query.toList = query.toList := by simp [rolledText, hfate]
  have hrolled : rolledMode query.toList mode = mode := by simp [rolledMode, hfate]
  rw [answer, answerWithin_of_none (splitRepetition?_eq_none_iff.mpr hmarks),
    if_pos (isWorthReading_of_pools_ne_nil hpools)] at h
  obtain ⟨-, -, hvalue, tray₁, hrolls, -⟩ := answerTerms_eq_ok h
  rw [leafPools, htext] at hvalue
  obtain ⟨x, hx⟩ := hvalue hpools
  have hr : Result.leaf (String.ofList query.toList) x r.entries = r := by
    rw [answerTerms_of_rollAll hrolls, hx] at h
    exact Except.ok.inj (Prod.mk.inj h).1
  have htotal : r.total = x := by rw [← hr, Result.total]
  rw [leafText, htext] at hx
  rw [leafPools, htext, hrolled] at hrolls
  have hsentence : IsSentence Amount (pieces query.toList) (r.entries.map Roll.total) r.total := by
    rw [htotal]
    apply isSentence_of_evaluate hx
    · rw [List.forall_mem_map]
      exact total_nonneg_of_rollAll hmode hrolls
    · rw [List.length_map, Tray.length_of_rollAll hrolls]
  refine ⟨hsentence, ?_, ?_, hsentence.lone⟩
  · intro before written pool behind hps
    obtain ⟨d, -, hreads, -⟩ := hsentence
    exact hreads.beside d.apart_symbols hps
  · rintro ⟨d, -, hreads, -⟩
    exact hreads.not_pointBeside d.apart_symbols

/-- A sum of two pools, one of which has decimals. -/
theorem answer_reads_sum_with_decimals :
    ∃ totals total, IsSentence Amount (pieces "1d6.5 + 1d4".toList) totals total := by
  have hmarks : ∀ c ∈ "1d6.5 + 1d4".toList, isRepetitionMark c = false := splitRepetition?_eq_none_iff.mp rfl
  have hok : (answer evaluate "1d6.5 + 1d4" .sum (.ofDice (Script.ofList [3]))).1.toOption.isSome = true := by
    decide +kernel
  obtain ⟨r, after, h⟩ := exists_of_isSome hok
  exact ⟨_, _, (answer_reads hmarks (by decide) (by decide +kernel) (by decide) h).1⟩

/-- A point behind a pool and the digits behind it are read as its decimals, and this makes no sentence if the pool
is an operand by itself. -/
theorem answer_decimals_behind_die :
    (∀ c ∈ "1d6.5".toList, isRepetitionMark c = false) ∧ hasFateMarker "1d6.5".toList = false ∧
      pools (pieces "1d6.5".toList) = [⟨1, 6⟩] ∧
        (∃ r after, answer evaluate "1d6.5" .sum (.ofDice (Script.ofList [3])) = (.ok r, after) ∧
          after.evaluated = #["3.5"]) ∧
          ∀ totals total, ¬IsSentence Lone (pieces "1d6.5".toList) totals total := by
  have hpieces : pieces "1d6.5".toList = [.dice ['1', 'd', '6'] ⟨1, 6⟩, .text ['.'], .text ['5']] := by
    decide +kernel
  refine ⟨splitRepetition?_eq_none_iff.mp rfl, by decide, by rw [hpieces]; rfl, ?_, ?_⟩
  · have hok : (answer evaluate "1d6.5" .sum (.ofDice (Script.ofList [3]))).1.toOption.isSome = true := by
      decide +kernel
    have htexts : (answer evaluate "1d6.5" .sum (.ofDice (Script.ofList [3]))).2.evaluated = #["3.5"] := by
      decide +kernel
    obtain ⟨r, after, h⟩ := exists_of_isSome hok
    rw [h] at htexts
    exact ⟨r, after, h, htexts⟩
  · intro totals total ⟨d, _, hreads, _⟩
    apply hreads.not_pointBeside d.apart_symbols
    rw [hpieces]
    exact ⟨_, _, .inr ⟨[], _, rfl⟩⟩

end Answers

end Tabletop.Query

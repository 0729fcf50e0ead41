import Tabletop.Proofs.Answering
import Tabletop.Proofs.Reading
import Mathlib.Data.List.TakeWhile

/-!
Dice in the place of numbers. An expression whose operands are decimals and pools is written as a query;
its pools are rolled, their totals are written over them, and the text that results is read anew. Main
statement: this gives the value of the expression with each pool counting as its total. A total below zero
is written with a sign, which is one more level of nesting and otherwise as good as a number, because in a
sentence every operand and every name stands between marks.
-/

namespace Tabletop

open Arithmetic

namespace Query

/-- An operand of an expression with dice: a decimal, or a pool or what was rolled with it. -/
inductive Operand (δ : Type) where
  | literal (n : Numeral)
  | dice (d : δ)

/-- The ways to write the terminals of an expression with dice. Names consist of letters alone. -/
inductive Writing : Symbol (Operand Pool) → List Char → Prop
  | literal {n : Numeral} {run : List Char} :
      Numeral.ofChars? run = some n → Writing (.operand (.literal n)) run
  | dice {p : Pool} {run : List Char} : p.Writing run → Writing (.operand (.dice p)) run
  | name {run : List Char} : run ≠ [] → (∀ c ∈ run, c.isAlpha = true) →
      Writing (.token (.ident (String.ofList (run.map Char.toLower)))) run
  | mark {t : Token} {c : Char} : Token.ofChar? c = some t → Writing (.token t) [c]

/-- The number that a total is. -/
def totalNumber : Int → Float
  | .ofNat n => (Numeral.ofNat n).toFloat
  | .negSucc n => -(Numeral.ofNat (n + 1)).toFloat

def Operand.number : Operand Int → Float
  | literal n => n.toFloat
  | dice total => totalNumber total

/-- A total as it is written: a number behind a sign if it is negative. -/
def totalFactor : Int → Derivation Numeral .factor
  | .ofNat n => .operand (Numeral.ofNat n)
  | .negSucc n => .signed .minus (.operand (Numeral.ofNat (n + 1)))

def Operand.factor : Operand Int → Derivation Numeral .factor
  | literal n => .operand n
  | dice total => totalFactor total

theorem Operand.value_factor (x : Operand Int) :
    x.factor.value Numeral.toFloat = .ok x.number := by
  cases x with
  | literal n => rfl
  | dice total => cases total <;> rfl

theorem Operand.nesting_factor_le (x : Operand Int) : x.factor.nesting ≤ 1 := by
  cases x with
  | literal n => exact Nat.zero_le 1
  | dice total => cases total <;> simp [factor, totalFactor, Derivation.nesting]

section Dice

variable {δ : Type} {k : Category}

def dice? : Symbol (Operand δ) → Option δ
  | .operand (.dice d) => some d
  | _ => none

/-- The dice of an expression, from left to right. -/
def dice (d : Derivation (Operand δ) k) : List δ := d.symbols.filterMap dice?

/-- The expression with the given totals in the place of its dice, from left to right. -/
def withTotals {k : Category} : Derivation (Operand Pool) k → List Int → Derivation (Operand Int) k
  | .operand (.literal n), _ => .operand (.literal n)
  | .operand (.dice _), totals => .operand (.dice (totals.headD 0))
  | .signed s d, totals => .signed s (withTotals d totals)
  | .group d, totals => .group (withTotals d totals)
  | .callEmpty name, _ => .callEmpty name
  | .call name ds, totals => .call name (withTotals ds totals)
  | .factor d, totals => .factor (withTotals d totals)
  | .product l op r, totals =>
    .product (withTotals l totals) op (withTotals r (totals.drop (dice l).length))
  | .term d, totals => .term (withTotals d totals)
  | .sum l op r, totals =>
    .sum (withTotals l totals) op (withTotals r (totals.drop (dice l).length))
  | .last d, totals => .last (withTotals d totals)
  | .more d ds, totals =>
    .more (withTotals d totals) (withTotals ds (totals.drop (dice d).length))

/-- The terminals with the given totals in the place of the dice. -/
def withTotalsAll : List (Symbol (Operand Pool)) → List Int → List (Symbol (Operand Int))
  | [], _ => []
  | .operand (.literal n) :: ss, totals => .operand (.literal n) :: withTotalsAll ss totals
  | .operand (.dice _) :: ss, totals => .operand (.dice (totals.headD 0)) :: withTotalsAll ss totals.tail
  | .token t :: ss, totals => .token t :: withTotalsAll ss totals

theorem withTotalsAll_append (ss us : List (Symbol (Operand Pool))) (totals : List Int) :
    withTotalsAll (ss ++ us) totals =
      withTotalsAll ss totals ++ withTotalsAll us (totals.drop (ss.filterMap dice?).length) := by
  fun_induction withTotalsAll ss totals with
  | case1 => simp
  | case2 n ss totals ih => simpa [withTotalsAll, List.filterMap_cons, dice?] using ih
  | case3 p ss totals ih => simpa [withTotalsAll, dice?, Nat.add_comm] using ih
  | case4 t ss totals ih => simpa [withTotalsAll, List.filterMap_cons, dice?] using ih

theorem symbols_withTotals (d : Derivation (Operand Pool) k) (totals : List Int) :
    (withTotals d totals).symbols = withTotalsAll d.symbols totals := by
  induction d generalizing totals with
  | operand a => cases a <;> rfl
  | callEmpty name => rfl
  | _ => simp_all [withTotals, Derivation.symbols, withTotalsAll, withTotalsAll_append, dice, dice?]

theorem nesting_withTotals (d : Derivation (Operand Pool) k) (totals : List Int) :
    (withTotals d totals).nesting = d.nesting := by
  induction d generalizing totals with
  | operand a => cases a <;> rfl
  | _ => simp_all [withTotals, Derivation.nesting]

end Dice

section Spliced

variable {s : Symbol (Operand Pool)} {ss : List (Symbol (Operand Pool))} {gap run cs : List Char}

theorem Writing.separator (h : Writing s run) (hs : s.isMark = true) :
    ∃ c, run = [c] ∧ IsSeparator c := by
  cases h with
  | literal => cases hs
  | dice => cases hs
  | name => cases hs
  | mark hc => exact ⟨_, rfl, .inr (by rw [hc]; rfl)⟩

/-- What is neither a mark nor followed by one is not written in front of another terminal. -/
theorem separator_behind (hss : Apart (s :: ss)) (h : Written (fun s run _ => Writing s run) ss cs) :
    s.isMark = true ∨ ∀ c ∈ cs.head?, IsSeparator c := by
  by_cases hs : s.isMark = true
  · exact .inl hs
  · refine .inr (h.separator_of_head? fun s' hs' run _ hrun => hrun.separator ?_)
    exact ((List.isChain_cons.mp hss).1 s' hs').resolve_left hs

theorem plain_of_blanks (h : Blanks gap) : Plain gap cs :=
  plain_of_not_digits fun c hc => IsSeparator.not_isDecimalDigit (.inl (h c hc))

theorem Writing.plain (h : Writing s run) (hs : dice? s = none)
    (hcs : s.isMark = true ∨ ∀ c ∈ cs.head?, IsSeparator c) : Plain run cs := by
  cases h with
  | literal hn => exact plain_of_parts (parts_of_ofChars? hn) (hcs.resolve_left (by simp [Symbol.isMark]))
  | dice => cases hs
  | name _ hrun => exact plain_of_not_digits fun c hc => not_isDecimalDigit_of_isAlpha (hrun c hc)
  | mark hc => exact plain_singleton (IsSeparator.not_isDecimalDigit (.inr (by rw [hc]; rfl)))

/-- The pools that are found are the dice, each within its limits. -/
theorem pools_of_written (h : Written (fun s run _ => Writing s run) ss cs) (hss : Apart ss) :
    pools (pieces cs) = (ss.filterMap dice?).map Pool.clamped := by
  induction h with
  | @finish gap hgap =>
    rw [← List.append_nil gap, (plain_of_blanks hgap).pools]
    simp [pieces, pools]
  | @terminal gap run cs s ss hgap hrun hrest ih =>
    have hbehind := separator_behind hss hrest
    have hpools := ih (List.isChain_cons.mp hss).2
    rw [List.append_assoc, (plain_of_blanks hgap).pools, List.filterMap_cons]
    cases hs : dice? s with
    | none => rw [(hrun.plain hs hbehind).pools, hpools]
    | some p =>
      cases hrun with
      | @dice p run hp =>
        cases hs
        have hcs := fun c hc => (hbehind.resolve_left (by simp [Symbol.isMark]) c hc).not_isDecimalDigit
        rw [pieces_term hp hcs, List.map_cons, ← hpools]
        rfl
      | _ => cases hs

theorem ofChars?_toDigits (n : Nat) : Numeral.ofChars? (Nat.toDigits 10 n) = some (Numeral.ofNat n) := by
  have hdigits : ∀ c ∈ Nat.toDigits 10 n, c.isDigit = true :=
    fun _ => isDigit_of_mem_toDigits
  have hpoint : '.' ∉ Nat.toDigits 10 n := fun h => absurd (hdigits _ h) (by decide)
  have hwell : Numeral.isWellFormed (Nat.toDigits 10 n) = true := by
    obtain ⟨c, hc⟩ := List.exists_mem_of_ne_nil _ (Nat.toDigits_ne_nil (n := n) (b := 10))
    have hparts : ∀ c ∈ Nat.toDigits 10 n, Numeral.isPart c = true := fun c hc => by
      simp [Numeral.isPart, hdigits c hc]
    simp only [Numeral.isWellFormed, Bool.and_eq_true, List.all_eq_true, List.any_eq_true,
      List.count_eq_zero_of_not_mem hpoint]
    exact ⟨⟨hparts, c, hc, hdigits c hc⟩, rfl⟩
  have hnone : (Nat.toDigits 10 n).dropWhile (· != '.') = [] :=
    List.dropWhile_eq_nil_iff.mpr fun c hc => bne_iff_ne.mpr fun h => hpoint (h ▸ hc)
  rw [Numeral.ofChars?, if_pos hwell, Numeral.ofChars, hnone, List.filter_eq_self.mpr hdigits,
    Nat.ofDigitChars_ten_toDigits]
  rfl

/-- The tokens of the terminals with the given totals in the place of the dice. -/
def totalTokens (ss : List (Symbol (Operand Pool))) (totals : List Int) : List Token :=
  ((withTotalsAll ss totals).flatMap (Symbol.bind Operand.factor)).map Symbol.toToken

theorem totalTokens_dice (p : Pool) (ss : List (Symbol (Operand Pool))) (total : Int)
    (totals : List Int) :
    totalTokens (.operand (.dice p) :: ss) (total :: totals) =
      (totalFactor total).tokens ++ totalTokens ss totals := by
  simp [totalTokens, withTotalsAll, Symbol.bind, Operand.factor, Derivation.tokens]

theorem written_total {ts : List Token} (total : Int) (hgap : Blanks gap)
    (h : Written (fun t run _ => t.Writing run) ts cs) :
    Written (fun t run _ => t.Writing run) ((totalFactor total).tokens ++ ts)
      (gap ++ intChars total ++ cs) := by
  cases total with
  | ofNat n => exact .terminal hgap (.number (ofChars?_toDigits n)) h
  | negSucc n =>
    have hminus : Token.minus.Writing ['-'] := .mark rfl
    have hnumber := Written.terminal blanks_nil (Token.Writing.number (ofChars?_toDigits (n + 1))) h
    have hsign := Written.terminal hgap hminus hnumber
    simpa [totalFactor, Sign.token, intChars] using hsign

theorem Writing.token_writing (h : Writing s run) (hs : dice? s = none) :
    ∃ t : Token, t.Writing run ∧
      ∀ ss totals, totalTokens (s :: ss) totals = t :: totalTokens ss totals := by
  cases h with
  | literal hn => exact ⟨_, .number hn, fun _ _ => rfl⟩
  | dice => cases hs
  | name hne hrun =>
    obtain ⟨c, cs, rfl⟩ := List.exists_cons_of_ne_nil hne
    refine ⟨_, .ident (hrun c List.mem_cons_self) fun x hx => ?_, fun _ _ => rfl⟩
    simp [Char.isAlphanum, hrun x (List.mem_cons_of_mem c hx)]
  | mark hc => exact ⟨_, .mark hc, fun _ _ => rfl⟩

/-- With the totals over its pools a text is a way to write the terminals with these totals. -/
theorem splice_of_written (h : Written (fun s run _ => Writing s run) ss cs) (hss : Apart ss)
    (totals : List Int) (hlen : totals.length = (ss.filterMap dice?).length) :
    Written (fun t run _ => t.Writing run) (totalTokens ss totals) (splice (pieces cs) totals) := by
  induction h generalizing totals with
  | @finish gap hgap =>
    rw [← List.append_nil gap, (plain_of_blanks hgap).splice]
    simpa [pieces, splice, totalTokens, withTotalsAll] using Written.finish hgap
  | @terminal gap run cs s ss hgap hrun hrest ih =>
    have hbehind := separator_behind hss hrest
    have htail := ih (List.isChain_cons.mp hss).2
    rw [List.append_assoc, (plain_of_blanks hgap).splice]
    rw [List.filterMap_cons] at hlen
    cases hs : dice? s with
    | none =>
      rw [hs] at hlen
      obtain ⟨t, ht, htokens⟩ := hrun.token_writing hs
      rw [(hrun.plain hs hbehind).splice, htokens, ← List.append_assoc]
      exact .terminal hgap ht (htail totals hlen)
    | some p =>
      -- A pool is an operand, so a mark or the end is behind it, and its digits end where its run does.
      rw [hs] at hlen
      obtain ⟨total, totals, rfl⟩ := List.exists_cons_of_length_eq_add_one hlen
      cases hrun with
      | @dice p run hp =>
        have hcs := fun c hc => (hbehind.resolve_left (by simp [Symbol.isMark]) c hc).not_isDecimalDigit
        rw [pieces_term hp hcs, totalTokens_dice, splice, ← List.append_assoc]
        exact written_total total hgap (htail totals (by simpa using hlen))
      | _ => cases hs

end Spliced

section Answered

variable {d : Derivation (Operand Pool) .expression} {cs : List Char}

/-- The text with the totals over its pools has the value of the expression with these totals. -/
theorem evaluate_splice (h : Written (fun s run _ => Writing s run) d.symbols cs) (hd : d.nesting ≤ 255)
    (totals : List Int) (hlen : totals.length = (dice d).length) :
    evaluate (String.ofList (splice (pieces cs) totals)) =
      match (withTotals d totals).value Operand.number with
      | .ok x => .ok (unsignedZero x)
      | .error fault => .error ⟨.value fault, none⟩ := by
  let whole := (withTotals d totals).bind Operand.factor
  have htokens : whole.tokens = totalTokens d.symbols totals := by
    rw [Derivation.tokens, Derivation.symbols_bind, symbols_withTotals, totalTokens]
  have hspells : Spells whole.tokens (splice (pieces cs) totals) := by
    apply Derivation.spells_of_written
    rw [htokens]
    exact splice_of_written h d.apart_symbols totals hlen
  have hnesting : whole.nesting ≤ maxNesting := by
    have hbind := Derivation.nesting_bind_le Operand.nesting_factor_le (withTotals d totals)
    rw [nesting_withTotals] at hbind
    exact hbind.trans (Nat.succ_le_succ hd)
  have hvalue : whole.tree.evaluate = (withTotals d totals).value Operand.number :=
    whole.evaluate_tree.trans (Derivation.value_bind Operand.value_factor _)
  simp only [evaluate, String.toList_ofList, parse_of_spells hspells hnesting, bind, Except.bind, hvalue]
  cases (withTotals d totals).value Operand.number <;> rfl

variable {σ : Type} [DieSource σ] {query : String} {mode : Scoring} {tray tray' : Tray σ}
  {rolls : List Roll}

/-- The answer to a written expression with dice: each of its dice is rolled once, from left to right, and
the total is the value of the expression in which every pool counts as what was rolled with it. -/
theorem answer_of_written (hquery : Written (fun s run _ => Writing s run) d.symbols query.toList)
    (hnesting : d.nesting ≤ 255) (hdice : dice d ≠ [])
    (hmarks : ∀ c ∈ query.toList, isRepetitionMark c = false)
    (hfate : hasFateMarker query.toList = false)
    (hrolls : tray.rollAll mode (dice d) = (.ok rolls, tray')) :
    rolls.map Roll.pool = (dice d).map Pool.clamped ∧
      answer evaluate query mode tray =
        (match (withTotals d (rolls.map Roll.total)).value Operand.number with
          | .ok x => .ok (.leaf query (unsignedZero x) rolls)
          | .error fault => .error (.arithmetic ⟨.value fault, none⟩),
          { tray' with evaluated := tray'.evaluated.push (leafText query.toList rolls) }) := by
  have htext : rolledText query.toList = query.toList := by simp [rolledText, hfate]
  have hmode : rolledMode query.toList mode = mode := by simp [rolledMode, hfate]
  have hpools : leafPools query.toList = (dice d).map Pool.clamped := by
    rw [leafPools, htext, pools_of_written hquery d.apart_symbols, dice]
  have hsome : leafPools query.toList ≠ [] := by
    rw [hpools]
    simpa using hdice
  have hworth : isWorthReading query.toList = true := by
    apply isWorthReading_of_pools_ne_nil
    rwa [leafPools, htext] at hsome
  have hrolls' : tray.rollAll (rolledMode query.toList mode) (leafPools query.toList) =
      (.ok rolls, tray') := by
    rw [hmode, hpools, Tray.rollAll_map_clamped, hrolls]
  have hleaf : leafText query.toList rolls =
      String.ofList (splice (pieces query.toList) (rolls.map Roll.total)) := by
    rw [leafText, htext]
  have hvalue := evaluate_splice hquery hnesting (rolls.map Roll.total)
    (by rw [List.length_map, Tray.length_of_rollAll hrolls])
  rw [← hleaf] at hvalue
  refine ⟨Tray.pools_of_rollAll hrolls, ?_⟩
  rw [answer, answerWithin_of_none (splitRepetition?_eq_none_iff.mpr hmarks), if_pos hworth,
    answerTerms_of_rollAll hrolls', hvalue, String.ofList_toList]
  cases (withTotals d (rolls.map Roll.total)).value Operand.number with
  | ok x => rfl
  | error fault => simp only [if_neg hsome]

/-- A negative total behind a minus sign. -/
theorem answer_two_minus_fate_die :
    (answer evaluate "2 - 1d6" .fate (.ofDice (Script.always 1))).1 =
      .ok (.leaf "2 - 1d6" (unsignedZero ((Numeral.ofNat 2).toFloat - -(Numeral.ofNat 1).toFloat))
        [⟨⟨1, 6⟩, .fate, [1]⟩]) := by
  let d : Derivation (Operand Pool) .expression :=
    .sum (.term (.factor (.operand (.literal ⟨2, 0⟩)))) .minus (.factor (.operand (.dice ⟨1, 6⟩)))
  have hblank : Blanks [' '] := by simp [Blanks, Text.isBlank]
  have htwo : Writing (.operand (.literal ⟨2, 0⟩)) ['2'] := .literal rfl
  have hminus : Writing (.token .minus) ['-'] := .mark rfl
  have hdigit : ∀ c ∈ ['1'], c.isDigit = true := List.forall_mem_singleton.mpr rfl
  have hdigit' : ∀ c ∈ ['6'], c.isDigit = true := List.forall_mem_singleton.mpr rfl
  have hdie : Writing (.operand (.dice ⟨1, 6⟩)) ['1', 'd', '6'] :=
    .dice (@Pool.Writing.mk ['1'] ['6'] 'd' (by decide) hdigit rfl (by decide) hdigit')
  have hwritten : Written (fun s run _ => Writing s run) d.symbols
      ([] ++ ['2'] ++ ([' '] ++ ['-'] ++ ([' '] ++ ['1', 'd', '6'] ++ []))) :=
    .terminal blanks_nil htwo (.terminal hblank hminus (.terminal hblank hdie (.finish blanks_nil)))
  have hquery : Written (fun s run _ => Writing s run) d.symbols "2 - 1d6".toList := hwritten
  have hrolls : (Tray.ofDice (Script.always 1)).rollAll .fate (dice d) =
      (.ok [⟨⟨1, 6⟩, .fate, [1]⟩], ⟨⟨[], 1⟩, #[⟨⟨1, 6⟩, .fate, [1]⟩], #[]⟩) := rfl
  have hmarks : ∀ c ∈ "2 - 1d6".toList, isRepetitionMark c = false := splitRepetition?_eq_none_iff.mp rfl
  have hanswer := answer_of_written hquery (by decide) (by decide) hmarks (by decide) hrolls
  exact congrArg Prod.fst hanswer.2

end Answered

end Query

end Tabletop

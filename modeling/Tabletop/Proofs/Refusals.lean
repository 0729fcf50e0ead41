import Tabletop.Proofs.Agreement
import Tabletop.Proofs.Places

/-!
How texts are refused. A reader that begins where a phrase is expected takes a phrase, or it refuses the text: because
a lexeme it looks for cannot be read, because signs, parentheses and calls nest too deep, because a parenthesis is not
closed, or because it has a token in hand with which no operand begins while an operand is due. Main statement: a text
that has tokens and is no expression is refused for one of these reasons, or because something is left over.
-/

namespace Tabletop.Arithmetic

variable {n : Nat} {k : Category} {ts us before : List Token} {S T : List Token → Prop}

/-- The sentences of a category that nest at most `n` deep. -/
def Phrases (n : Nat) (k : Category) (ts : List Token) : Prop :=
  ∃ d : Derivation Numeral k, d.nesting ≤ n ∧ d.tokens = ts

namespace Phrases

theorem number (n : Nat) (m : Numeral) : Phrases n .factor [.number m] := ⟨.operand m, Nat.zero_le n, rfl⟩

theorem signed (s : Sign) (h : Phrases n .factor ts) : Phrases (n + 1) .factor (s.token :: ts) := by
  obtain ⟨d, hd, rfl⟩ := h
  exact ⟨.signed s d, Nat.succ_le_succ hd, rfl⟩

theorem group (h : Phrases n .expression ts) : Phrases (n + 1) .factor (.leftParen :: (ts ++ [.rightParen])) := by
  obtain ⟨d, hd, rfl⟩ := h
  exact ⟨.group d, Nat.succ_le_succ hd, Derivation.tokens_group d⟩

theorem callEmpty (n : Nat) (name : String) : Phrases (n + 1) .factor [.ident name, .leftParen, .rightParen] :=
  ⟨.callEmpty name, Nat.le_add_left 1 n, rfl⟩

theorem call (name : String) (h : Phrases n .arguments ts) :
    Phrases (n + 1) .factor (.ident name :: .leftParen :: (ts ++ [.rightParen])) := by
  obtain ⟨d, hd, rfl⟩ := h
  exact ⟨.call name d, Nat.succ_le_succ hd, Derivation.tokens_call name d⟩

theorem factor (h : Phrases n .factor ts) : Phrases n .term ts := by
  obtain ⟨d, hd, rfl⟩ := h
  exact ⟨.factor d, hd, rfl⟩

theorem product {t : Token} {op : BinaryOp} (h : Phrases n .term ts) (hop : productOp? t = some op)
    (hus : Phrases n .factor us) : Phrases n .term (ts ++ t :: us) := by
  obtain ⟨l, hl, rfl⟩ := h
  obtain ⟨r, hr, rfl⟩ := hus
  obtain ⟨s, rfl, -⟩ := productOp?_eq_some.mp hop
  exact ⟨.product l s r, max_le hl hr, Derivation.tokens_product l s r⟩

theorem term (h : Phrases n .term ts) : Phrases n .expression ts := by
  obtain ⟨d, hd, rfl⟩ := h
  exact ⟨.term d, hd, rfl⟩

theorem sum {t : Token} {op : BinaryOp} (h : Phrases n .expression ts) (hop : sumOp? t = some op)
    (hus : Phrases n .term us) : Phrases n .expression (ts ++ t :: us) := by
  obtain ⟨l, hl, rfl⟩ := h
  obtain ⟨r, hr, rfl⟩ := hus
  obtain ⟨s, rfl, -⟩ := sumOp?_eq_some.mp hop
  exact ⟨.sum l s r, max_le hl hr, Derivation.tokens_sum l s r⟩

theorem last (h : Phrases n .expression ts) : Phrases n .arguments ts := by
  obtain ⟨d, hd, rfl⟩ := h
  exact ⟨.last d, hd, rfl⟩

theorem more (h : Phrases n .expression ts) (hus : Phrases n .arguments us) :
    Phrases n .arguments (ts ++ .comma :: us) := by
  obtain ⟨d, hd, rfl⟩ := h
  obtain ⟨ds, hds, rfl⟩ := hus
  exact ⟨.more d ds, max_le hd hds, Derivation.tokens_more d ds⟩

end Phrases

/-- Some rest makes a sentence of `before` and any of the phrases. -/
def Expects (S : List Token → Prop) (before : List Token) : Prop :=
  ∃ after, ∀ ts, S ts → Phrases maxNesting .expression (before ++ ts ++ after)

/-- Within a phrase that is expected another one is. -/
theorem Expects.enter {read : List Lexeme} (h : Expects S (read.map Lexeme.token)) (more : List Lexeme)
    (post : List Token) (hS : ∀ ts, T ts → S (more.map Lexeme.token ++ ts ++ post)) :
    Expects T ((read ++ more).map Lexeme.token) := by
  obtain ⟨after, hafter⟩ := h
  refine ⟨post ++ after, fun ts hts => ?_⟩
  have hphrase := hafter _ (hS ts hts)
  simpa using hphrase

theorem Expects.mono (h : Expects S before) (hS : ∀ ts, T ts → S ts) : Expects T before := by
  obtain ⟨after, hafter⟩ := h
  exact ⟨after, fun ts hts => hafter ts (hS ts hts)⟩

/-- Any number can stand behind `before`, in some sentence that nests no deeper than is allowed. -/
def OperandDue (before : List Token) : Prop :=
  ∃ after, ∀ m : Numeral, Phrases maxNesting .expression (before ++ .number m :: after)

theorem Expects.operandDue (h : Expects (Phrases n .factor) before) : OperandDue before := by
  obtain ⟨after, hafter⟩ := h
  refine ⟨after, fun m => ?_⟩
  have hphrase := hafter _ (.number n m)
  rwa [List.append_assoc] at hphrase

/-- Whether an operand begins with the token, if `next` is the token behind it. -/
def Token.beginsOperand : (t next : Token) → Bool
  | number _, _ | plus, _ | minus, _ | leftParen, _ => true
  | ident _, next => next = leftParen
  | _, _ => false

theorem Token.beginsOperand_eq_false {t next : Token} (hnumber : ∀ m, t = number m → False) (hminus : t = minus → False)
    (hplus : t = plus → False) (hopen : t = leftParen → False) (hident : ∀ name, t = ident name → False) :
    t.beginsOperand next = false := by
  cases t with
  | number m => exact (hnumber m rfl).elim
  | ident name => exact (hident name rfl).elim
  | minus => exact (hminus rfl).elim
  | plus => exact (hplus rfl).elim
  | leftParen => exact (hopen rfl).elim
  | _ => rfl

namespace Window

/-- The lexemes up to the one in hand are those of `read`. -/
structure Behind (text : Lexed) (read : List Lexeme) (w : Window) : Prop where
  lexemes : text.lexemes = read ++ w.rest
  endsWith : w.EndsWith text.ending

/-- The lexemes before the one in hand are those of `read`. -/
inductive At (text : Lexed) (read : List Lexeme) (w : Window) : Prop
  | token {l : Lexeme} : l.token = w.current → w.Behind text (read ++ [l]) → At text read w
  | finish : w.current = .finish → w.rest = [] → w.Behind text read → At text read w

end Window

/-- Why a text is refused, and where. -/
inductive Refused (text : Lexed) : Error → Prop
  | lexeme {fault : Fault} {position : Nat} : text.ending = .fault fault position → Refused text ⟨fault, some position⟩
  | token {read : List Lexeme} {w : Window} : OperandDue (read.map Lexeme.token) → w.At text read →
      w.current.beginsOperand w.peek = false → Refused text (w.fail (.unexpectedToken w.current))
  | unclosed {read : List Lexeme} {w : Window} : w.Behind text read → Refused text (w.fail .unclosedParenthesis)
  | deep {read : List Lexeme} {w : Window} : w.At text read → Refused text (w.fail (.tooDeep maxNesting))
  | trailing {read behind : List Lexeme} {l : Lexeme} : text.lexemes = read ++ l :: behind →
      Refused text ⟨.trailingInput l.token, some l.stop⟩

/-- A value with a property, or an error that refuses the text. -/
inductive Traced (text : Lexed) {α : Type} (P : α → Prop) : Except Error α → Prop
  | ok {a : α} : P a → Traced text P (.ok a)
  | error {e : Error} : Refused text e → Traced text P (.error e)

theorem Traced.bind {text : Lexed} {α β : Type} {P : α → Prop} {Q : β → Prop} {x : Except Error α}
    {f : α → Except Error β} (h : Traced text P x) (hf : ∀ a, P a → Traced text Q (f a)) :
    Traced text Q (x >>= f) := by
  cases h with
  | ok ha => exact hf _ ha
  | error he => exact .error he

theorem Traced.mono {text : Lexed} {α : Type} {P Q : α → Prop} {x : Except Error α} (h : Traced text P x)
    (hPQ : ∀ a, P a → Q a) : Traced text Q x := by
  cases h with
  | ok ha => exact .ok (hPQ _ ha)
  | error he => exact .error he

namespace Window

variable {text : Lexed} {read : List Lexeme} {w : Window}

theorem At.exists_behind (h : w.At text read) : ∃ read', w.Behind text read' := by
  cases h with
  | token _ hbehind => exact ⟨_, hbehind⟩
  | finish _ _ hbehind => exact ⟨_, hbehind⟩

theorem At.behind {t : Token} (h : w.At text read) (hcurrent : w.current = t) (ht : t ≠ .finish) :
    ∃ l, l.token = t ∧ w.Behind text (read ++ [l]) := by
  cases h with
  | token hl hbehind => exact ⟨_, hl.trans hcurrent, hbehind⟩
  | finish hfinish => exact absurd (hcurrent.symm.trans hfinish) ht

theorem Behind.advance (h : w.Behind text read) :
    Traced text (fun w₁ => w₁.val.At text read ∧ w₁.val.current = w.peek) w.advance := by
  obtain ⟨current, rest, ending⟩ := w
  obtain ⟨hlexemes, rfl, hlast⟩ := h
  rcases rest with _ | ⟨l, _ | ⟨l', ls⟩⟩
  · exact .ok ⟨.finish rfl rfl ⟨hlexemes, rfl, hlast⟩, rfl⟩
  · cases hend : text.ending with
    | finish m =>
      exact .ok ⟨.token rfl ⟨by simpa using hlexemes, hend.symm, fun _ => ⟨m, hend⟩⟩, rfl⟩
    | fault f m => exact .error (.lexeme hend)
  · have hadvance : advance ⟨current, l :: l' :: ls, text.ending⟩ =
        .ok ⟨⟨l.token, l' :: ls, text.ending⟩, Nat.le_refl _⟩ := by
      cases text.ending <;> rfl
    rw [hadvance]
    exact .ok ⟨.token rfl ⟨by simpa using hlexemes, rfl, by simp⟩, rfl⟩

theorem Behind.advance_of_peek {t : Token} (h : w.Behind text read) (hpeek : w.peek = t) (ht : t ≠ .finish) :
    Traced text (fun w₁ => ∃ l, l.token = t ∧ w₁.val.Behind text (read ++ [l])) w.advance := by
  have hadvance := h.advance
  cases hw : w.advance with
  | error e =>
    rw [hw] at hadvance
    cases hadvance with
    | error he => exact .error he
  | ok w₁ =>
    rw [hw] at hadvance
    cases hadvance with
    | ok hat =>
      exact .ok (hat.1.behind (hat.2.trans hpeek) ht)

theorem Behind.close (h : w.Behind text read) :
    Traced text (fun w₁ => ∃ l, l.token = .rightParen ∧ w₁.val.Behind text (read ++ [l])) w.close := by
  unfold Window.close
  split
  · next hpeek => exact h.advance_of_peek hpeek (by simp)
  · exact .error (.unclosed h)

end Window

/-- Behind `read` a phrase was taken. -/
abbrev Parsed.Took {bound : Nat} (S : List Token → Prop) (text : Lexed) (read : List Lexeme) (r : Parsed bound) : Prop :=
  ∃ phrase, S (phrase.map Lexeme.token) ∧ r.window.Behind text (read ++ phrase)

/-- Where a phrase is expected, the reader takes one or refuses the text. -/
def Tracks (S : List Token → Prop) (reader : Phrase) : Prop :=
  ∀ ⦃text : Lexed⦄ ⦃read : List Lexeme⦄ ⦃w : Window⦄, w.At text read → Expects S (read.map Lexeme.token) →
    Traced text (Parsed.Took S text read) (reader w)

section Chains

variable {op? : Token → Option BinaryOp} {operand : Phrase} {K : List Token → Prop} {text : Lexed}
  {read phrase : List Lexeme} {w : Window}

theorem Tracks.chainFrom (hoperand : Tracks S operand) (hfinish : op? .finish = none)
    (hmore : ∀ {us t op ts}, K us → op? t = some op → S ts → K (us ++ t :: ts))
    (hread : Expects K (read.map Lexeme.token)) {bound : Nat} {left : Expr} {size_le : w.size ≤ bound}
    (hphrase : K (phrase.map Lexeme.token)) (hw : w.Behind text (read ++ phrase)) :
    Traced text (Parsed.Took K text read) (chainFrom op? operand bound left w size_le) := by
  induction hn : w.size using Nat.strong_induction_on generalizing w left phrase with
  | _ n ih =>
    cases hop : op? w.peek with
    | none =>
      rw [chainFrom_of_none hop]
      exact .ok ⟨phrase, hphrase, hw⟩
    | some op =>
      have hpeek : w.peek ≠ .finish := by
        intro h
        rw [h, hfinish] at hop
        cases hop
      rw [chainFrom_of_some hop hfinish]
      apply (hw.advance_of_peek rfl hpeek).bind
      rintro w₁ ⟨l, hl, hw₁⟩
      apply hw₁.advance.bind
      rintro w₂ ⟨hw₂, -⟩
      have hexpects : Expects S ((read ++ phrase ++ [l]).map Lexeme.token) := by
        rw [List.append_assoc]
        exact hread.enter (phrase ++ [l]) [] fun ts hts => by simpa [hl] using hmore hphrase hop hts
      apply (hoperand hw₂ hexpects).bind
      rintro right ⟨more, hright, hw₃⟩
      have hphrase' : K ((phrase ++ l :: more).map Lexeme.token) := by
        simpa [hl] using hmore hphrase hop hright
      refine ih _ ?_ hphrase' (by simpa using hw₃) rfl
      have hne : w.size ≠ 0 := Window.size_ne_zero_of_peek rfl hpeek
      have := w₁.property; have := w₂.property; have := right.size_le
      omega

/-- If operands are tracked, so are the chains of them. -/
theorem Tracks.chain (hoperand : Tracks S operand) (hfinish : op? .finish = none)
    (hsingle : ∀ {ts}, S ts → K ts) (hmore : ∀ {us t op ts}, K us → op? t = some op → S ts → K (us ++ t :: ts)) :
    Tracks K (chain op? operand) := by
  intro text read w hw hread
  apply (hoperand hw (hread.mono fun _ => hsingle)).bind
  rintro first ⟨phrase, hphrase, hfirst⟩
  exact hoperand.chainFrom hfinish hmore hread (hsingle hphrase) hfirst

end Chains

theorem Tracks.expression {factor : Phrase} (h : Tracks (Phrases n .factor) factor) :
    Tracks (Phrases n .expression) (expression factor) :=
  (h.chain rfl .factor .product).chain rfl .term .sum

section Calls

variable {argument : Phrase} {name : String} {text : Lexed} {read : List Lexeme} {w : Window}

/-- The arguments and the parenthesis behind them. -/
theorem Tracks.arguments (hargument : Tracks (Phrases n .expression) argument) {bound : Nat} {args : List Expr}
    {size_le : w.size ≤ bound} (hw : w.Behind text read)
    (hread : Expects (Phrases n .arguments) (read.map Lexeme.token)) :
    Traced text (fun r => ∃ phrase close, Phrases n .arguments (phrase.map Lexeme.token) ∧ close.token = .rightParen ∧
      r.window.Behind text (read ++ phrase ++ [close])) (arguments argument name bound args w size_le) := by
  induction hsize : w.size using Nat.strong_induction_on generalizing w read args with
  | _ size ih =>
    rw [arguments_eq]
    apply hw.advance.bind
    rintro w₁ ⟨hw₁, -⟩
    apply (hargument hw₁ (hread.mono fun _ => .last)).bind
    rintro arg ⟨first, hfirst, harg⟩
    split
    · next hcomma =>
      apply (harg.advance_of_peek hcomma (by simp)).bind
      rintro w₂ ⟨comma, hcommaToken, hw₂⟩
      have hexpects : Expects (Phrases n .arguments) ((read ++ first ++ [comma]).map Lexeme.token) := by
        rw [List.append_assoc]
        exact hread.enter (first ++ [comma]) [] fun ts hts => by simpa [hcommaToken] using hfirst.more hts
      have hlt : w₂.val.size < size := by
        have hne := Window.size_ne_zero_of_peek hcomma (by simp)
        have := w₁.property; have := w₂.property; have := arg.size_le
        omega
      apply (ih _ hlt hw₂ hexpects rfl).mono
      rintro r ⟨phrase, close, hphrase, hclose, hbehind⟩
      refine ⟨first ++ comma :: phrase, close, ?_, hclose, by simpa using hbehind⟩
      simpa [hcommaToken] using hfirst.more hphrase
    · apply harg.close.bind
      rintro w₂ ⟨close, hclose, hw₂⟩
      exact .ok ⟨first, close, hfirst.last, hclose, hw₂⟩

/-- The call of a name is refused where no parenthesis is behind the name. -/
theorem Tracks.call (hargument : Tracks (Phrases n .expression) argument) (hw : w.At text read)
    (hcurrent : w.current = .ident name) (hread : Expects (Phrases (n + 1) .factor) (read.map Lexeme.token)) :
    Traced text (Parsed.Took (Phrases (n + 1) .factor) text read) (call argument name w) := by
  unfold Arithmetic.call
  split
  · next hopen =>
    obtain ⟨l, hl, hbehind⟩ := hw.behind hcurrent (by simp)
    apply (hbehind.advance_of_peek hopen (by simp)).bind
    rintro w₁ ⟨opening, hopening, hw₁⟩
    split
    · next hclose =>
      apply (hw₁.advance_of_peek hclose (by simp)).bind
      rintro w₂ ⟨close, hcloseToken, hw₂⟩
      refine .ok ⟨[l, opening, close], ?_, by simpa using hw₂⟩
      simpa [hl, hopening, hcloseToken] using Phrases.callEmpty n name
    · have hexpects : Expects (Phrases n .arguments) ((read ++ [l] ++ [opening]).map Lexeme.token) := by
        rw [List.append_assoc]
        exact hread.enter ([l] ++ [opening]) [.rightParen] fun ts hts => by simpa [hl, hopening] using hts.call name
      apply (hargument.arguments hw₁ hexpects).mono
      rintro r ⟨phrase, close, hphrase, hclose, hbehind⟩
      refine ⟨l :: opening :: phrase ++ [close], ?_, by simpa using hbehind⟩
      simpa [hl, hopening, hclose] using hphrase.call name
  · next hopen =>
    have hnone : w.current.beginsOperand w.peek = false := by
      rw [hcurrent]
      exact decide_eq_false hopen
    rw [← hcurrent]
    exact .error (.token hread.operandDue hw hnone)

end Calls

section Factors

variable {inner : Phrase} {text : Lexed} {read : List Lexeme} {w : Window}

theorem Window.At.took_number {m : Numeral} (hw : w.At text read) (hcurrent : w.current = .number m) :
    Parsed.Took (Phrases n .factor) text read (⟨.literal m, w, Nat.le_refl _⟩ : Parsed w.size) := by
  obtain ⟨l, hl, hbehind⟩ := hw.behind hcurrent (by simp)
  refine ⟨[l], ?_, hbehind⟩
  simpa [hl] using Phrases.number n m

/-- Where no level is left, a factor is a number. -/
theorem tracks_factorWithin_none : Tracks (Phrases n .factor) (factorWithin none) := by
  intro text read w hw hread
  unfold factorWithin
  dsimp only
  split
  · next m hcurrent => exact .ok (hw.took_number hcurrent)
  · exact .error (.deep hw)
  · exact .error (.deep hw)
  · exact .error (.deep hw)
  · exact .error (.deep hw)
  · next hnumber hminus hplus hopen hident =>
    exact .error (.token hread.operandDue hw (Token.beginsOperand_eq_false hnumber hminus hplus hopen hident))

theorem Tracks.signed (hinner : Tracks (Phrases n .factor) inner) {s : Sign} (hw : w.At text read)
    (hcurrent : w.current = s.token) (hread : Expects (Phrases (n + 1) .factor) (read.map Lexeme.token))
    {make : (w₁ : { w₁ : Window // w₁.size ≤ w.size - 1 }) → Parsed w₁.val.size → Parsed w.size}
    (hmake : ∀ w₁ r, (make w₁ r).window = r.window) :
    Traced text (Parsed.Took (Phrases (n + 1) .factor) text read) (do
      let w₁ ← w.advance
      let operand ← inner w₁
      .ok (make w₁ operand)) := by
  obtain ⟨l, hl, hbehind⟩ := hw.behind hcurrent (by cases s <;> simp [Sign.token])
  apply hbehind.advance.bind
  rintro w₁ ⟨hw₁, -⟩
  have hexpects : Expects (Phrases n .factor) ((read ++ [l]).map Lexeme.token) :=
    hread.enter [l] [] fun ts hts => by simpa [hl] using hts.signed s
  apply (hinner hw₁ hexpects).bind
  rintro operand ⟨phrase, hphrase, hoperand⟩
  refine .ok ⟨l :: phrase, ?_, ?_⟩
  · simpa [hl] using hphrase.signed s
  · rw [hmake]
    simpa using hoperand

theorem Tracks.factorWithin (hinner : Tracks (Phrases n .factor) inner) :
    Tracks (Phrases (n + 1) .factor) (factorWithin (some inner)) := by
  intro text read w hw hread
  unfold Arithmetic.factorWithin
  dsimp only
  split
  · next m hcurrent => exact .ok (hw.took_number hcurrent)
  · next hcurrent => exact hinner.signed (s := .minus) hw hcurrent hread fun _ _ => rfl
  · next hcurrent => exact hinner.signed (s := .plus) hw hcurrent hread fun _ _ => rfl
  · next hcurrent =>
    obtain ⟨l, hl, hbehind⟩ := hw.behind hcurrent (by simp)
    apply hbehind.advance.bind
    rintro w₁ ⟨hw₁, -⟩
    have hexpects : Expects (Phrases n .expression) ((read ++ [l]).map Lexeme.token) :=
      hread.enter [l] [.rightParen] fun ts hts => by simpa [hl] using hts.group
    apply (hinner.expression hw₁ hexpects).bind
    rintro inside ⟨phrase, hphrase, hinside⟩
    apply hinside.close.bind
    rintro w₂ ⟨close, hclose, hw₂⟩
    refine .ok ⟨l :: phrase ++ [close], ?_, by simpa using hw₂⟩
    simpa [hl, hclose] using hphrase.group
  · next name hcurrent => exact hinner.expression.call hw hcurrent hread
  · next hnumber hminus hplus hopen hident =>
    exact .error (.token hread.operandDue hw (Token.beginsOperand_eq_false hnumber hminus hplus hopen hident))

theorem tracks_factor : (levels : Nat) → Tracks (Phrases levels .factor) (factor levels)
  | 0 => tracks_factorWithin_none
  | levels + 1 => (tracks_factor levels).factorWithin

end Factors

section Texts

variable {text : Lexed} {e : Error}

/-- A text that is no expression has no tokens, or there is a reason to refuse it. -/
theorem refused_of_parseLexed (h : parseLexed text = .error e) :
    (text.lexemes = [] ∧ (∃ n, text.ending = .finish n) ∧ e = ⟨.empty, none⟩) ∨ Refused text e := by
  by_cases hnil : text.lexemes = []
  · obtain ⟨lexemes, ending⟩ := text
    cases hnil
    cases ending with
    | finish n =>
      cases h
      exact .inl ⟨rfl, ⟨n, rfl⟩, rfl⟩
    | fault fault position =>
      cases h
      exact .inr (.lexeme rfl)
  · right
    have hstart : Window.Behind text [] ⟨.plus, text.lexemes, text.ending⟩ := ⟨rfl, rfl, fun h => absurd h hnil⟩
    have hexpects : Expects (Phrases maxNesting .expression) [] :=
      ⟨[], fun ts hts => by simpa using hts⟩
    have htraced : Traced text (fun _ => True) (parseLexed text) := by
      rw [parseLexed_eq hnil]
      apply hstart.advance.bind
      rintro w ⟨hw, -⟩
      apply ((tracks_factor maxNesting).expression hw hexpects).bind
      rintro whole ⟨phrase, -, hwhole⟩
      split
      · exact .ok trivial
      · next l behind hrest =>
        have hlexemes := hwhole.lexemes
        rw [hrest] at hlexemes
        have hposition : whole.window.fail (.trailingInput l.token) = ⟨.trailingInput l.token, some l.stop⟩ := by
          simp only [Window.fail, Window.position, hrest]
        rw [hposition]
        exact .error (.trailing hlexemes)
    rw [h] at htraced
    cases htraced with
    | error he => exact he

end Texts

end Tabletop.Arithmetic

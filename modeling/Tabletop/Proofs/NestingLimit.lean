import Tabletop.Proofs.MachineRuns
import Mathlib.Order.MinMax

/-!
What nests too deep. On a phrase that nests deeper than the levels of a reader, the reader gets as far as the place
where the levels run out, and fails there: everything before that place it can read, and what comes behind it does
not matter. Main statement: the machine that reads a text has never more than 256 nested calls open and closes each
call that it opens, and of the sentences of the grammar exactly those are rejected that nest deeper.
-/

namespace Tabletop.Arithmetic

/-- The levels have run out. -/
def TooDeep {α : Type} (x : Except Error α) : Prop := ∃ p, x = .error ⟨.tooDeep maxNesting, p⟩

theorem TooDeep.bind {α β : Type} {x : Except Error α} (h : TooDeep x) (f : α → Except Error β) :
    TooDeep (x >>= f) := by
  obtain ⟨p, rfl⟩ := h
  exact ⟨p, rfl⟩

/-- Every phrase of the category that nests deeper is found to do so, whatever follows it. -/
def Refuses (read : Phrase) (limit : Nat) (k : Category) : Prop :=
  ∀ (d : Derivation Numeral k) ⦃m : Nat⦄ ⦃w : Window⦄ ⦃rest : List Token⦄, limit < d.nesting →
    w.EndsWith (.finish m) → w.tokens = d.tokens ++ rest → TooDeep (read w)

section Phrases

variable {read : Phrase} {n m : Nat} {k : Category} {w : Window} {rest : List Token}

/-- What is refused behind the token in hand. -/
theorem Refuses.of_advance (h : Refuses read n k) (d : Derivation Numeral k) (hd : n < d.nesting)
    (hw : w.EndsWith (.finish m)) (hahead : w.ahead = d.tokens ++ rest) {β : Type}
    (f : (w₁ : w.Next) → Parsed w₁.val.size → Except Error β) :
    TooDeep (w.advance >>= fun w₁ => read w₁ >>= f w₁) := by
  obtain ⟨t, ts, ht, -⟩ := d.tokens_eq_cons
  rw [ht, List.cons_append] at hahead
  obtain ⟨w₁, hadv, hend, htokens⟩ := Window.advance_of_ahead hw hahead
  rw [← List.cons_append, ← ht] at htokens
  rw [hadv]
  exact (h d hd hend htokens).bind _

end Phrases

section Chains

variable {op? : Token → Option BinaryOp} {operand : Phrase} {L : Language} {follows : Token → Prop} {k : Category}
  {n m : Nat} {w : Window} {ts rest : List Token} {left : Expr} {t : Token} {op : BinaryOp}

/-- A chain is refused with the operand that follows what can be read of it. -/
theorem Refuses.chain (hrefuses : Refuses operand n k) (hoperand : Complete operand L follows)
    (hfollows : ∀ t op, op? t = some op → follows t) (hL : ∀ {ts tree}, L ts tree → ts ≠ [])
    (hfinish : op? .finish = none) (hw : w.EndsWith (.finish m)) (hts : Chain op? L ts left) (hop : op? t = some op)
    (d : Derivation Numeral k) (hd : n < d.nesting) (h : w.tokens = ts ++ t :: (d.tokens ++ rest)) :
    TooDeep (chain op? operand w) := by
  obtain ⟨w', hle, hchain, hend, hahead⟩ :=
    chain_eq_chainFrom hoperand hfollows hL hw hts h (by simpa using hfollows t op hop)
  obtain ⟨w₁, hadv, hend₁, htokens⟩ := Window.advance_of_ahead hend hahead
  have hahead₁ : w₁.val.ahead = d.tokens ++ rest := (List.cons.inj htokens).2
  have hpeek : op? w'.peek = some op := by rw [Window.peek_eq_headD, hahead]; exact hop
  rw [hchain, chainFrom_of_some hpeek hfinish, hadv]
  exact hrefuses.of_advance d hd hend₁ hahead₁ _

end Chains

section Sentences

variable {inner : Phrase} {n : Nat}

theorem Refuses.term (hrefuses : Refuses inner n .factor) (hinner : Complete inner (factors n) fun _ => True) :
    Refuses (term inner) n .term
  | .factor d, _, _, _, hd, hw, h => (hrefuses d hd hw h).bind _
  | .product l op r, _, w, rest, hd, hw, h => by
    rw [Derivation.tokens_product, List.append_assoc, List.cons_append] at h
    by_cases hl : n < l.nesting
    · exact Refuses.term hrefuses hinner l hl hw h
    · have hr : n < r.nesting := (lt_max_iff.mp hd).resolve_left hl
      have hop : productOp? op.token = some op.op := productOp?_eq_some.mpr ⟨op, rfl, rfl⟩
      exact hrefuses.chain hinner (fun _ _ _ => trivial) factors_ne_nil rfl hw
        (l.chain_of_term (Nat.not_lt.mp hl)) hop r hr h

theorem Refuses.expression (hrefuses : Refuses inner n .factor)
    (hinner : Complete inner (factors n) fun _ => True) : Refuses (expression inner) n .expression
  | .term d, _, _, _, hd, hw, h => (hrefuses.term hinner d hd hw h).bind _
  | .sum l op r, _, w, rest, hd, hw, h => by
    rw [Derivation.tokens_sum, List.append_assoc, List.cons_append] at h
    by_cases hl : n < l.nesting
    · exact Refuses.expression hrefuses hinner l hl hw h
    · have hr : n < r.nesting := (lt_max_iff.mp hd).resolve_left hl
      have hop : sumOp? op.token = some op.op := sumOp?_eq_some.mpr ⟨op, rfl, rfl⟩
      refine (hrefuses.term hinner).chain hinner.term (fun t op hop => ?_) terms_ne_nil rfl hw
        (l.chain_of_expression (Nat.not_lt.mp hl)) hop r hr h
      obtain ⟨s, rfl, -⟩ := sumOp?_eq_some.mp hop
      cases s <;> rfl

variable {m : Nat} {name : String}

theorem Refuses.arguments {argument : Phrase} (hrefuses : Refuses argument n .expression)
    (hargument : Complete argument (expressions n) Closing) (ds : Derivation Numeral .arguments) (hds : n < ds.nesting)
    {w : Window} {rest : List Token} {bound : Nat} {args : List Expr} {size_le : w.size ≤ bound}
    (hw : w.EndsWith (.finish m)) (h : w.ahead = ds.tokens ++ rest) :
    TooDeep (arguments argument name bound args w size_le) := by
  rw [arguments_eq]
  match ds with
  | .last d => exact hrefuses.of_advance d hds hw h _
  | .more d ds =>
    rw [Derivation.tokens_more, List.append_assoc, List.cons_append] at h
    by_cases hd : n < d.nesting
    · exact hrefuses.of_advance d hd hw h _
    · have hexpression : expressions n d.tokens d.tree := ⟨d, Nat.not_lt.mp hd, rfl, rfl⟩
      obtain ⟨w₁, arg, hadv₁, harg, -, hend, hahead⟩ := hargument.of_advance expressions_ne_nil hw hexpression h
        (by simp [Closing, productOp?, sumOp?])
      have hcomma : arg.window.peek = .comma := by rw [Window.peek_eq_headD, hahead]; rfl
      obtain ⟨w₂, hadv₂, hend₂, htokens⟩ := Window.advance_of_ahead hend hahead
      simp only [hadv₁, harg, bind, Except.bind, if_pos hcomma, hadv₂]
      exact hrefuses.arguments hargument ds ((lt_max_iff.mp hds).resolve_left hd) hend₂ (List.cons.inj htokens).2

theorem Refuses.call {argument : Phrase} (hrefuses : Refuses argument n .expression)
    (hargument : Complete argument (expressions n) Closing) (ds : Derivation Numeral .arguments) (hds : n < ds.nesting)
    {w : Window} {rest : List Token} (hw : w.EndsWith (.finish m)) (h : w.ahead = .leftParen :: (ds.tokens ++ rest)) :
    TooDeep (call argument name w) := by
  obtain ⟨w₁, hadv, hend, htokens⟩ := Window.advance_of_ahead hw h
  have hahead : w₁.val.ahead = ds.tokens ++ rest := (List.cons.inj htokens).2
  have hopen : w.peek = .leftParen := by rw [Window.peek_eq_headD, h]; rfl
  have hclose : w₁.val.peek ≠ .rightParen := by
    obtain ⟨t, us, hus, ht⟩ := ds.tokens_eq_cons
    rwa [Window.peek_eq_headD, hahead, hus]
  simp only [Arithmetic.call, if_pos hopen, hadv, bind, Except.bind, if_neg hclose]
  exact hrefuses.arguments hargument ds hds hend hahead

/-- With no level left, every phrase is refused that opens one. -/
theorem refuses_factor_zero : Refuses (factor 0) 0 .factor := by
  intro d m w rest hd _ h
  have hc : w.current = d.tokens.head d.tokens_ne_nil := by
    obtain ⟨t, ts, ht, -⟩ := d.tokens_eq_cons
    simp only [ht, List.head_cons]
    exact (List.cons.inj (h.trans (by rw [ht, List.cons_append]))).1
  refine ⟨some w.position, ?_⟩
  cases d with
  | operand x => exact absurd hd (Nat.lt_irrefl 0)
  | signed s d => cases s <;> simp only [factor_zero, factorWithin, hc] <;> rfl
  | _ => simp only [factor_zero, factorWithin, hc]; rfl

theorem Refuses.factorWithin (hrefuses : Refuses inner n .factor) (hinner : Complete inner (factors n) fun _ => True) :
    Refuses (factorWithin (some inner)) (n + 1) .factor := by
  intro d m w rest hd hw h
  have hexpression : Refuses (Arithmetic.expression inner) n .expression := hrefuses.expression hinner
  cases d with
  | operand x => exact absurd hd (Nat.not_lt_zero _)
  | signed s d =>
    rw [Derivation.tokens_signed, List.cons_append] at h
    obtain ⟨hc, hahead⟩ := List.cons.inj h
    cases s with
    | plus =>
      simp only [Arithmetic.factorWithin, hc, Sign.token]
      exact hrefuses.of_advance d (Nat.lt_of_succ_lt_succ hd) hw hahead _
    | minus =>
      simp only [Arithmetic.factorWithin, hc, Sign.token]
      exact hrefuses.of_advance d (Nat.lt_of_succ_lt_succ hd) hw hahead _
  | group d =>
    rw [Derivation.tokens_group, List.cons_append, List.append_assoc] at h
    obtain ⟨hc, hahead⟩ := List.cons.inj h
    simp only [Arithmetic.factorWithin, hc]
    exact hexpression.of_advance d (Nat.lt_of_succ_lt_succ hd) hw hahead _
  | callEmpty name => exact absurd (Nat.lt_of_succ_lt_succ hd) (Nat.not_lt_zero n)
  | call name ds =>
    rw [Derivation.tokens_call, List.cons_append, List.cons_append, List.append_assoc] at h
    obtain ⟨hc, hahead⟩ := List.cons.inj h
    simp only [Arithmetic.factorWithin, hc]
    exact hexpression.call hinner.expression ds (Nat.lt_of_succ_lt_succ hd) hw hahead

theorem refuses_factor (n : Nat) : Refuses (factor n) n .factor := by
  induction n with
  | zero => exact refuses_factor_zero
  | succ n ih => exact ih.factorWithin (factor_complete n)

end Sentences

section Texts

variable {d : Derivation Numeral .expression} {cs : List Char}

theorem exists_start_of_spells (h : Spells d.tokens cs) :
    ∃ w m, Window.start (lex cs) = .ok w ∧ w.EndsWith (.finish m) ∧ w.tokens = d.tokens := by
  obtain ⟨ls, m, hlex, hls⟩ := spells_iff_lex.mp h
  have hne : ls ≠ [] := by
    rintro rfl
    exact d.tokens_ne_nil hls.symm
  rw [hlex, ← hls]
  obtain ⟨w, hstart⟩ := @Window.start_of_ne_nil ⟨ls, .finish m⟩ m rfl hne
  exact ⟨w, m, hstart⟩

theorem tooDeep_parse_of_spells (h : Spells d.tokens cs) (hd : maxNesting < d.nesting) : TooDeep (parse cs) := by
  obtain ⟨w, m, hstart, hw, htokens⟩ := exists_start_of_spells h
  rw [← List.append_nil d.tokens] at htokens
  have hdeep := (refuses_factor maxNesting).expression (factor_complete maxNesting) d hd hw htokens
  unfold parse parseLexed
  rw [hstart]
  exact hdeep.bind _

/-- The machine comes to an end on every text, and with what `parse` makes of the text. Until then the counter tells
how many nested calls are open, and they are not more than 256, with not more than three loops for each of them and
for the outermost call. Every call that is open returns, and as the counter depends on the open calls only, a nested
call leaves it as it was, whether it fails or not. Of the sentences of the grammar those are rejected that nest more
than 256 deep, and for no other reason. -/
theorem parse_nesting_limit (text : String) :
    (∀ w, Window.start (lex text.toList) = .ok w →
      (∀ m, Machine.Run (.start w) m →
        openNested m.stack = m.depth ∧ m.depth ≤ 256 ∧ openLoops m.stack ≤ 3 * (256 + 1) ∧
          (∀ m', m.Run m' → m'.stack = m.stack → m'.depth = m.depth) ∧
          ∀ rest, rest <:+ m.stack →
            ∃ w' outcome, m.Run ⟨w', openNested rest, rest, .returning outcome⟩) ∧
      ∀ w' outcome, Machine.Run (.start w) ⟨w', 0, [], .returning outcome⟩ →
        parse text.toList = outcome >>= w'.finished) ∧
    ∀ d : Derivation Numeral .expression, Spells d.tokens text.toList →
      ((∃ e, parse text.toList = .error e) ↔ 256 < d.nesting) ∧
        ∀ e, parse text.toList = .error e → e.fault = .tooDeep 256 := by
  refine ⟨fun w hstart => ⟨fun m hm => ?_, fun w' outcome => Machine.parseLexed_of_run hstart⟩, fun d hspells => ?_⟩
  · have hvalid := Machine.valid_of_run hm
    refine ⟨hvalid.openNested_eq, hvalid.depth_le, hvalid.openLoops_le, fun m' hrun hstack => ?_, fun rest hrest => ?_⟩
    · rw [← (hvalid.of_run hrun).openNested_eq, ← hvalid.openNested_eq, hstack]
    · exact hvalid.returns_suffix hrest
  · have hiff : (∃ e, parse text.toList = .error e) ↔ 256 < d.nesting := by
      constructor
      · rintro ⟨e, he⟩
        by_contra hd
        rw [parse_of_spells hspells (Nat.not_lt.mp hd)] at he
        cases he
      · intro hd
        obtain ⟨p, hp⟩ := tooDeep_parse_of_spells hspells hd
        exact ⟨_, hp⟩
    refine ⟨hiff, fun e he => ?_⟩
    obtain ⟨p, hp⟩ := tooDeep_parse_of_spells hspells (hiff.mp ⟨e, he⟩)
    rw [hp] at he
    cases he
    rfl

end Texts

section Signs

/-- A one with `n` signs. -/
def signedOne : Nat → Derivation Numeral .factor
  | 0 => .operand ⟨1, 0⟩
  | n + 1 => .signed .minus (signedOne n)

theorem nesting_signedOne (n : Nat) : (signedOne n).nesting = n := by
  induction n with
  | zero => rfl
  | succ n ih => rw [signedOne, Derivation.nesting, ih]

/-- The text of the signed one. -/
def signedText (n : Nat) : String := String.ofList (List.replicate n '-' ++ ['1'])

theorem spells_signedText (n : Nat) :
    Spells (Derivation.term (.factor (signedOne n))).tokens (signedText n).toList := by
  have hone : Token.Writing (.number ⟨1, 0⟩) ['1'] := .number rfl
  have hminus : Token.Writing .minus ['-'] := .mark rfl
  have hend : Written (fun (t : Token) run _ => t.Writing run) [] [] := .finish blanks_nil
  apply Derivation.spells_of_written
  rw [signedText, String.toList_ofList, Derivation.tokens_term, Derivation.tokens_factor]
  induction n with
  | zero => exact (Written.terminal blanks_nil hone hend :)
  | succ n ih => exact (Written.terminal blanks_nil hminus ih :)

/-- A sign more than may be is too many. -/
theorem parse_nesting_limit_signs :
    (¬∃ e, parse (signedText 256).toList = .error e) ∧
      (∃ e, parse (signedText 257).toList = .error e ∧ e.fault = .tooDeep 256) ∧
      ∃ w, Window.start (lex (signedText 257).toList) = .ok w ∧
        ∀ m, Machine.Run (.start w) m → m.depth ≤ 256 ∧ openLoops m.stack ≤ 771 := by
  obtain ⟨-, hlast⟩ := parse_nesting_limit (signedText 256)
  obtain ⟨hrun, hone⟩ := parse_nesting_limit (signedText 257)
  obtain ⟨hiff, hfault⟩ := hone _ (spells_signedText 257)
  obtain ⟨w, _, hstart, -⟩ := exists_start_of_spells (spells_signedText 257)
  have hnesting (n : Nat) : (Derivation.term (.factor (signedOne n))).nesting = n := nesting_signedOne n
  rw [hnesting] at hiff
  refine ⟨?_, ?_, w, hstart, fun m hm => ?_⟩
  · rw [(hlast _ (spells_signedText 256)).1, hnesting]
    exact Nat.lt_irrefl 256
  · obtain ⟨e, he⟩ := hiff.mpr (Nat.lt_succ_self 256)
    exact ⟨e, he, hfault e he⟩
  · obtain ⟨-, hdepth, hloops, -⟩ := (hrun w hstart).1 m hm
    exact ⟨hdepth, hloops⟩

end Signs

end Tabletop.Arithmetic

import Tabletop.Proofs.Likeness
import Tabletop.Proofs.Reading

/-!
Reading lexemes that are alike. A reader takes windows in front of which everything is alike to such windows
again, or fails at both with malformations of one kind. Only a free sign tells the two readings apart: it is one
more level for the second, which may run out of levels by that. A fault among the lexemes is met one token ahead
of the one in hand, and where a sign is free the two are a token apart, so readers are compared together with the
step to their first token. Main statement: similar texts are malformed in the same way, unless free signs make the
second one nest too deep.
-/

namespace Tabletop.Arithmetic

variable {signs due : Bool}

/-- Both succeed with results that are related, or fail with malformations of one kind. If `signs`, the second
may have failed because it nests too deep. -/
inductive Agree (signs : Bool) {α α' : Type} (R : α → α' → Prop) :
    Except Error α → Except Error α' → Prop
  | ok {a : α} {a' : α'} : R a a' → Agree signs R (.ok a) (.ok a')
  | error {e e' : Error} {k : Malformation} : e.fault.malformation? = some k →
      e'.fault.malformation? = some k → Agree signs R (.error e) (.error e')
  | deep {x : Except Error α} {e' : Error} : signs = true → e'.fault.malformation? = some .tooDeep →
      Agree signs R x (.error e')

theorem Agree.bind {α α' β β' : Type} {R : α → α' → Prop} {S : β → β' → Prop} {x : Except Error α}
    {x' : Except Error α'} {f : α → Except Error β} {f' : α' → Except Error β'} (h : Agree signs R x x')
    (hf : ∀ a a', R a a' → Agree signs S (f a) (f' a')) : Agree signs S (x >>= f) (x' >>= f') := by
  cases h with
  | ok hR => exact hf _ _ hR
  | error hk hk' => exact .error hk hk'
  | deep hsigns hk' => exact .deep hsigns hk'

theorem Agree.mono {α α' : Type} {R S : α → α' → Prop} {x : Except Error α} {x' : Except Error α'}
    (h : Agree signs R x x') (hRS : ∀ a a', R a a' → S a a') : Agree signs S x x' := by
  cases h with
  | ok hR => exact .ok (hRS _ _ hR)
  | error hk hk' => exact .error hk hk'
  | deep hsigns hk' => exact .deep hsigns hk'

namespace Window

/-- What lies ahead is alike and ends alike. -/
structure Alike (signs due : Bool) (w w' : Window) : Prop where
  ahead : Matched signs due w.ahead w'.ahead
  ending : w.ending.Alike w'.ending

variable {w w' : Window}

theorem size_le_of_advance {bound : Nat} (h : w.size ≤ bound)
    (w₁ : { w₁ : Window // w₁.size ≤ w.size - 1 }) : w₁.val.size ≤ bound :=
  w₁.property.trans ((Nat.sub_le ..).trans h)

theorem size_ne_zero_of_peek {t : Token} (h : w.peek = t) (ht : t ≠ .finish) : w.size ≠ 0 := by
  intro hzero
  rw [peek, List.eq_nil_of_length_eq_zero hzero] at h
  exact ht h.symm

theorem Alike.peek (h : w.Alike signs false w') : w.peek.Alike w'.peek := by
  rw [peek_eq_headD, peek_eq_headD]
  obtain ⟨hahead, -⟩ := h
  generalize w.ahead = ts at hahead
  generalize w'.ahead = ts' at hahead
  cases hahead with
  | nil => exact .same _
  | token ht _ => exact ht

/-- Where an operand is due, everything is alike but for one sign at most. -/
theorem Alike.plain_or_signed (h : w.Alike signs due w') :
    w.Alike signs false w' ∨ ∃ m n ts ts', signs = true ∧ w.ahead = .number m :: ts ∧
      w'.ahead = .minus :: .number n :: ts' ∧ Matched signs false ts ts' := by
  obtain ⟨hahead, hending⟩ := h
  generalize hts : w.ahead = ts at hahead
  generalize hts' : w'.ahead = ts' at hahead
  cases hahead with
  | nil => exact .inl ⟨by rw [hts, hts']; exact .nil, hending⟩
  | token ht hrest => exact .inl ⟨by rw [hts, hts']; exact .token ht hrest, hending⟩
  | signed m n hsigns hrest => exact .inr ⟨m, n, _, _, hsigns, rfl, rfl, hrest⟩

/-- The windows have like tokens in hand, and behind these everything is alike. -/
structure Level (signs : Bool) (w w' : Window) : Prop where
  current : w.current.Alike w'.current
  alike : w.Alike signs w.current.isOpening w'

theorem Alike.advance (h : w.Alike signs false w') :
    Agree signs (fun w₁ w₁' => w₁.val.current = w.peek ∧ Level signs w₁.val w₁'.val) w.advance
      w'.advance := by
  obtain ⟨current, rest, ending⟩ := w
  obtain ⟨current', rest', ending'⟩ := w'
  obtain ⟨hahead, hending⟩ := h
  cases rest with
  | nil =>
    cases rest' with
    | nil => exact .ok ⟨rfl, .same _, .nil, hending⟩
    | cons => cases hahead
  | cons l ls =>
    cases rest' with
    | nil => cases hahead
    | cons l' ls' =>
      cases hahead with
      | token hl hls =>
        have hnil := hls.eq_nil_iff
        match ls, ls' with
        | [], [] =>
          cases hending with
          | finish m n => exact .ok ⟨rfl, hl, .nil, .finish m n⟩
          | fault m n hk hk' => exact .error hk hk'
        | [], _ :: _ => simp at hnil
        | _ :: _, [] => simp at hnil
        | _ :: _, _ :: _ => exact .ok ⟨rfl, hl, hls, hending⟩

end Window

/-- Behind the phrases that were read everything is alike. -/
abbrev Parsed.Alike (signs : Bool) {bound bound' : Nat} (r : Parsed bound) (r' : Parsed bound') : Prop :=
  r.window.Alike signs false r'.window

/-- Where an operand is due, reading one behind the token in hand agrees, whatever is done with it then. -/
def Steady (signs : Bool) (read : Phrase) : Prop :=
  ∀ ⦃w w' : Window⦄, w.Alike signs true w' → ∀ ⦃β β' : Type⦄ ⦃S : β → β' → Prop⦄
    ⦃f : (w₁ : { w₁ : Window // w₁.size ≤ w.size - 1 }) → Parsed w₁.val.size → Except Error β⦄
    ⦃f' : (w₁ : { w₁ : Window // w₁.size ≤ w'.size - 1 }) → Parsed w₁.val.size → Except Error β'⦄,
    (∀ w₁ r w₁' r', r.Alike signs r' → Agree signs S (f w₁ r) (f' w₁' r')) →
      Agree signs S (w.advance >>= fun w₁ => read w₁ >>= f w₁) (w'.advance >>= fun w₁ => read w₁ >>= f' w₁)

section Chains

variable {op? : Token → Option BinaryOp} {operand : Phrase} {bound : Nat} {left : Expr} {w : Window}
  {size_le : w.size ≤ bound}

theorem chainFrom_of_none (h : op? w.peek = none) :
    chainFrom op? operand bound left w size_le = .ok ⟨left, w, size_le⟩ := by
  rw [chainFrom]
  split
  · rfl
  · next hrest =>
    rw [Window.peek, hrest] at h
    simp only [h]

theorem chainFrom_of_some {op : BinaryOp} (h : op? w.peek = some op) (hfinish : op? .finish = none) :
    chainFrom op? operand bound left w size_le = (do
      let w₁ ← w.advance
      let w₂ ← w₁.val.advance
      let right ← operand w₂
      chainFrom op? operand bound (.binary op left right.tree) right.window (right.size_le.trans
        (Window.size_le_of_advance (Window.size_le_of_advance size_le w₁) w₂))) := by
  rw [chainFrom]
  split
  · next hrest =>
    rw [Window.peek, hrest] at h
    rw [hfinish] at h
    cases h
  · next hrest =>
    rw [Window.peek, hrest] at h
    simp only [h]

/-- An operand is due behind every operator of the kind. -/
def Opens (op? : Token → Option BinaryOp) : Prop := ∀ t op, op? t = some op → t.isOpening = true

theorem Opens.eq_none (h : Opens op?) {t : Token} (ht : t.isOpening = false) : op? t = none := by
  apply Option.eq_none_iff_forall_ne_some.mpr
  intro op hop
  rw [h t op hop] at ht
  cases ht

theorem Opens.eq_of_alike (h : Opens op?) {t t' : Token} (ht : t.Alike t') : op? t = op? t' := by
  cases ht with
  | number m n => rw [h.eq_none rfl, h.eq_none rfl]
  | ident name name' => rw [h.eq_none rfl, h.eq_none rfl]
  | same t => rfl

theorem Steady.chainFrom (hop : Opens op?) (hoperand : Steady signs operand) {bound' : Nat} {left' : Expr}
    {w' : Window} {size_le' : w'.size ≤ bound'} (hw : w.Alike signs false w') :
    Agree signs (Parsed.Alike signs) (chainFrom op? operand bound left w size_le)
      (chainFrom op? operand bound' left' w' size_le') := by
  induction hn : w.size using Nat.strong_induction_on generalizing w w' left left' with
  | _ n ih =>
    cases hahead : op? w.peek with
    | none =>
      have hahead' : op? w'.peek = none := by rw [← hop.eq_of_alike hw.peek, hahead]
      rw [chainFrom_of_none hahead, chainFrom_of_none hahead']
      exact .ok hw
    | some op =>
      have hahead' : op? w'.peek = some op := by rw [← hop.eq_of_alike hw.peek, hahead]
      rw [chainFrom_of_some hahead (hop.eq_none rfl), chainFrom_of_some hahead' (hop.eq_none rfl)]
      apply hw.advance.bind
      rintro w₁ w₁' ⟨hcurrent, -, hw₁⟩
      rw [hcurrent, hop _ op hahead] at hw₁
      apply hoperand hw₁
      intro w₂ r w₂' r' hr
      refine ih r.window.size ?_ hr rfl
      have hne : w.size ≠ 0 := by
        apply Window.size_ne_zero_of_peek rfl
        intro hfinish
        rw [hfinish, hop.eq_none rfl] at hahead
        cases hahead
      have := w₁.property; have := w₂.property; have := r.size_le
      omega

theorem Steady.chain (hop : Opens op?) (hoperand : Steady signs operand) :
    Steady signs (chain op? operand) := by
  intro w w' hw β β' S f f' hf
  simp only [Arithmetic.chain, bind_assoc]
  apply hoperand hw
  intro w₁ first w₁' first' hfirst
  apply (Steady.chainFrom hop hoperand hfirst).bind
  intro r r' hr
  exact hf w₁ r w₁' r' hr

end Chains

theorem opens_sumOp? : Opens sumOp? := by
  intro t op h
  obtain ⟨s, rfl, -⟩ := sumOp?_eq_some.mp h
  cases s <;> rfl

theorem opens_productOp? : Opens productOp? := by
  intro t op h
  obtain ⟨s, rfl, -⟩ := productOp?_eq_some.mp h
  cases s <;> rfl

theorem Steady.expression {factor : Phrase} (h : Steady signs factor) : Steady signs (expression factor) :=
  (h.chain opens_productOp?).chain opens_sumOp?

section Calls

variable {argument : Phrase} {name name' : String} {w w' : Window}

theorem Token.Alike.eq_iff {t t' u : Token} (h : t.Alike t') (hnumber : ∀ n, u ≠ Token.number n)
    (hident : ∀ name, u ≠ Token.ident name) : t = u ↔ t' = u := by
  cases h with
  | number m n => exact ⟨fun h => absurd h.symm (hnumber m), fun h => absurd h.symm (hnumber n)⟩
  | ident a b => exact ⟨fun h => absurd h.symm (hident a), fun h => absurd h.symm (hident b)⟩
  | same t => exact Iff.rfl

theorem Window.Alike.close (h : w.Alike signs false w') :
    Agree signs (fun w₁ w₁' => w₁.val.Alike signs false w₁'.val) w.close w'.close := by
  have hpeek : w.peek = .rightParen ↔ w'.peek = .rightParen := h.peek.eq_iff nofun nofun
  unfold Window.close
  by_cases hclose : w.peek = .rightParen
  · rw [if_pos hclose, if_pos (hpeek.mp hclose)]
    apply h.advance.mono
    rintro w₁ w₁' ⟨hcurrent, -, hw₁⟩
    rwa [hcurrent, hclose] at hw₁
  · rw [if_neg hclose, if_neg fun h => hclose (hpeek.mpr h)]
    exact .error rfl rfl

theorem arguments_eq {bound : Nat} {args : List Expr} {size_le : w.size ≤ bound} :
    arguments argument name bound args w size_le = (do
      let w₁ ← w.advance
      let arg ← argument w₁
      if arg.window.peek = .comma then do
        let w₂ ← arg.window.advance
        arguments argument name bound (arg.tree :: args) w₂
          (Window.size_le_of_advance (arg.size_le.trans (Window.size_le_of_advance size_le w₁)) w₂)
      else do
        let w₂ ← arg.window.close
        .ok ⟨.call name (arg.tree :: args).reverse, w₂,
          Window.size_le_of_advance (arg.size_le.trans (Window.size_le_of_advance size_le w₁)) w₂⟩) := by
  rw [arguments]
  congr
  funext w₁
  congr
  funext arg
  split
  · next hcomma => rw [if_pos (by rw [Window.peek, hcomma])]
  · next hcomma =>
    rw [if_neg]
    intro hpeek
    cases hrest : arg.window.rest with
    | nil =>
      rw [Window.peek, hrest] at hpeek
      cases hpeek
    | cons l ls =>
      obtain ⟨token, start, stop⟩ := l
      rw [Window.peek, hrest] at hpeek
      cases hpeek
      exact hcomma start stop ls hrest

theorem Steady.arguments (hargument : Steady signs argument) {bound bound' : Nat} {args args' : List Expr}
    {size_le : w.size ≤ bound} {size_le' : w'.size ≤ bound'} (hw : w.Alike signs true w') :
    Agree signs (Parsed.Alike signs) (arguments argument name bound args w size_le)
      (arguments argument name' bound' args' w' size_le') := by
  induction hn : w.size using Nat.strong_induction_on generalizing w w' args args' with
  | _ n ih =>
    rw [arguments_eq, arguments_eq]
    apply hargument hw
    intro w₁ arg w₁' arg' harg
    have hpeek : arg.window.peek = .comma ↔ arg'.window.peek = .comma := harg.peek.eq_iff nofun nofun
    by_cases hcomma : arg.window.peek = .comma
    · rw [if_pos hcomma, if_pos (hpeek.mp hcomma)]
      apply harg.advance.bind
      rintro w₂ w₂' ⟨hcurrent, -, hw₂⟩
      rw [hcurrent, hcomma] at hw₂
      refine ih w₂.val.size ?_ hw₂ rfl
      have hne := Window.size_ne_zero_of_peek hcomma nofun
      have := w₁.property; have := w₂.property; have := arg.size_le
      omega
    · rw [if_neg hcomma, if_neg fun h => hcomma (hpeek.mpr h)]
      apply harg.close.bind
      intro w₂ w₂' hw₂
      exact .ok hw₂

theorem Steady.call (hargument : Steady signs argument) (hw : w.Alike signs false w') :
    Agree signs (Parsed.Alike signs) (call argument name w) (call argument name' w') := by
  have hpeek : w.peek = .leftParen ↔ w'.peek = .leftParen := hw.peek.eq_iff nofun nofun
  unfold Arithmetic.call
  by_cases hopen : w.peek = .leftParen
  · rw [if_pos hopen, if_pos (hpeek.mp hopen)]
    apply hw.advance.bind
    rintro w₁ w₁' ⟨hcurrent, -, hw₁⟩
    rw [hcurrent, hopen] at hw₁
    rcases hw₁.plain_or_signed with hplain | ⟨m, n, ts, ts', -, hahead, hahead', -⟩
    · have hpeek₁ : w₁.val.peek = .rightParen ↔ w₁'.val.peek = .rightParen :=
        hplain.peek.eq_iff nofun nofun
      by_cases hclose : w₁.val.peek = .rightParen
      · rw [if_pos hclose, if_pos (hpeek₁.mp hclose)]
        apply hplain.advance.bind
        rintro w₂ w₂' ⟨hcurrent, -, hw₂⟩
        rw [hcurrent, hclose] at hw₂
        exact .ok hw₂
      · rw [if_neg hclose, if_neg fun h => hclose (hpeek₁.mpr h)]
        exact hargument.arguments hw₁
    · rw [if_neg (by rw [Window.peek_eq_headD, hahead]; nofun),
        if_neg (by rw [Window.peek_eq_headD, hahead']; nofun)]
      exact hargument.arguments hw₁
  · rw [if_neg hopen, if_neg fun h => hopen (hpeek.mpr h)]
    exact .error rfl rfl

end Calls

section Factors

theorem Token.Alike.eq_number {m : Numeral} {t : Token} (h : (Token.number m).Alike t) :
    ∃ n, t = Token.number n := by
  cases h with
  | number m n => exact ⟨n, rfl⟩
  | same => exact ⟨m, rfl⟩

variable {inner? : Option Phrase} {w w' : Window}

/-- From windows that are level, factors agree. -/
theorem factorWithin_agree (hinner : ∀ inner ∈ inner?, Steady signs inner) (hw : w.Level signs w') :
    Agree signs (Parsed.Alike signs) (factorWithin inner? w) (factorWithin inner? w') := by
  obtain ⟨t, rest, ending⟩ := w
  obtain ⟨t', rest', ending'⟩ := w'
  obtain ⟨hcurrent, halike⟩ := hw
  cases inner? with
  | none =>
    cases hcurrent with
    | number m n => exact .ok halike
    | ident name name' => exact .error rfl rfl
    | same t =>
      cases t with
      | number n => exact .ok halike
      | _ => exact .error rfl rfl
  | some inner =>
    have hinner := hinner inner rfl
    cases hcurrent with
    | number m n => exact .ok halike
    | ident name name' => exact hinner.expression.call halike
    | same t =>
      cases t with
      | number n => exact .ok halike
      | ident name => exact hinner.expression.call halike
      | plus => exact hinner halike fun _ _ _ _ hr => .ok hr
      | minus => exact hinner halike fun _ _ _ _ hr => .ok hr
      | leftParen =>
        apply hinner.expression halike
        intro w₁ inside w₁' inside' hinside
        apply hinside.close.bind
        intro w₂ w₂' hw₂
        exact .ok hw₂
      | _ => exact .error rfl rfl

theorem factorWithin_of_number {n : Numeral} (h : w.current = .number n) :
    factorWithin inner? w = .ok ⟨.literal n, w, Nat.le_refl _⟩ := by
  simp only [factorWithin, h]

theorem factor_of_number {n : Numeral} (h : w.current = .number n) :
    ∀ levels, factor levels w = .ok ⟨.literal n, w, Nat.le_refl _⟩
  | 0 => factorWithin_of_number h
  | _ + 1 => factorWithin_of_number h

theorem factorWithin_of_minus {inner : Phrase} (h : w.current = .minus) :
    factorWithin (some inner) w = (do
      let w₁ ← w.advance
      let operand ← inner w₁
      .ok ⟨.neg operand.tree, operand.window,
        operand.size_le.trans (Window.size_le_of_advance (Nat.le_refl _) w₁)⟩) := by
  simp only [factorWithin, h]

theorem factorWithin_none_of_minus (h : w.current = .minus) :
    factorWithin none w = .error (w.fail (.tooDeep maxNesting)) := by
  simp only [factorWithin, h]

theorem Window.advance_of_two_ahead {t u : Token} {ts : List Token} (h : w.ahead = t :: u :: ts) :
    ∃ w₁, w.advance = .ok w₁ ∧ w₁.val.current = t ∧ w₁.val.ahead = u :: ts ∧
      w₁.val.ending = w.ending := by
  obtain ⟨current, rest, ending⟩ := w
  match rest, h with
  | l :: l' :: ls, h =>
    obtain ⟨hl, hls⟩ := List.cons.inj h
    exact ⟨_, rfl, hl, hls, rfl⟩

theorem steady_factorWithin (hinner : ∀ inner ∈ inner?, Steady signs inner)
    (hnumber : ∀ inner ∈ inner?, ∀ (w : Window) (n : Numeral), w.current = .number n →
      inner w = .ok ⟨.literal n, w, Nat.le_refl _⟩) : Steady signs (factorWithin inner?) := by
  intro w w' hw β β' S f f' hf
  rcases hw.plain_or_signed with hplain | ⟨m, n, ts, ts', hsigns, hahead, hahead', hts⟩
  · apply hplain.advance.bind
    rintro w₁ w₁' ⟨-, hlevel⟩
    apply (factorWithin_agree hinner hlevel).bind
    intro r r' hr
    exact hf w₁ r w₁' r' hr
  · -- The second window has a sign ahead, and behind it what the first one has ahead.
    obtain ⟨w₁', hadv, hcurrent', hbehind, hending⟩ := Window.advance_of_two_ahead hahead'
    have halike : w.Alike signs false w₁'.val := by
      refine ⟨?_, hending ▸ hw.ending⟩
      rw [hahead, hbehind]
      exact .token (.number m n) hts
    rw [hadv]
    change Agree signs S _ (factorWithin inner? w₁' >>= f' w₁')
    cases inner? with
    | none =>
      rw [factorWithin_none_of_minus hcurrent']
      exact .deep hsigns rfl
    | some inner =>
      rw [factorWithin_of_minus hcurrent', bind_assoc]
      apply halike.advance.bind
      rintro w₁ w₂' ⟨hcurrent, hlevel, hrest⟩
      have hfirst : w₁.val.current = .number m := by
        rw [hcurrent, Window.peek_eq_headD, hahead]
        rfl
      rw [hfirst] at hlevel hrest
      obtain ⟨n', hsecond⟩ := hlevel.eq_number
      rw [factorWithin_of_number hfirst, hnumber inner rfl _ _ hsecond]
      exact hf w₁ _ w₁' _ hrest

theorem steady_factor (levels : Nat) : Steady signs (factor levels) := by
  induction levels with
  | zero => exact steady_factorWithin nofun nofun
  | succ levels ih =>
    rw [factor_succ]
    apply steady_factorWithin
    · rintro inner ⟨⟩
      exact ih
    · rintro inner ⟨⟩ w n h
      exact factor_of_number h levels

end Factors

section Texts

variable {text text' : Lexed} {cs cs' : List Char}

theorem parseLexed_eq (h : text.lexemes ≠ []) :
    parseLexed text = (do
      let w ← Window.advance ⟨.plus, text.lexemes, text.ending⟩
      let whole ← expression (factor maxNesting) w
      match whole.window.rest with
      | [] => .ok whole.tree
      | ahead :: _ => .error (whole.window.fail (.trailingInput ahead.token))) := by
  obtain ⟨lexemes, ending⟩ := text
  match lexemes, ending with
  | [], _ => exact absurd rfl h
  | [_], .finish _ => rfl
  | [_], .fault _ _ => rfl
  | _ :: _ :: _, .finish _ => rfl
  | _ :: _ :: _, .fault _ _ => rfl

theorem Lexed.Alike.parseLexed (h : text.Alike signs true text') (hne : text.lexemes ≠ []) :
    Agree signs (fun _ _ => True) (parseLexed text) (parseLexed text') := by
  have hnil := h.tokens.eq_nil_iff
  rw [List.map_eq_nil_iff, List.map_eq_nil_iff] at hnil
  rw [parseLexed_eq hne, parseLexed_eq fun h => hne (hnil.mpr h)]
  have hw : Window.Alike signs true ⟨.plus, text.lexemes, text.ending⟩
    ⟨.plus, text'.lexemes, text'.ending⟩ := ⟨h.tokens, h.ending⟩
  apply (steady_factor maxNesting).expression hw
  intro w₁ whole w₁' whole' hwhole
  have hrest := hwhole.ahead.eq_nil_iff
  rw [Window.ahead, Window.ahead, List.map_eq_nil_iff, List.map_eq_nil_iff] at hrest
  cases h : whole.window.rest with
  | nil =>
    rw [hrest.mp h]
    exact .ok trivial
  | cons l ls =>
    cases h' : whole'.window.rest with
    | nil =>
      rw [hrest.mpr h'] at h
      cases h
    | cons l' ls' => exact .error rfl rfl

/-- The malformation that an outcome tells of. -/
def malformationIn {α : Type} : Except Error α → Option Malformation
  | .ok _ => none
  | .error e => e.fault.malformation?

theorem Agree.malformationIn {α α' : Type} {R : α → α' → Prop} {x : Except Error α} {x' : Except Error α'}
    (h : Agree signs R x x') :
    malformationIn x' = malformationIn x ∨ signs = true ∧ malformationIn x' = some .tooDeep := by
  cases h with
  | ok _ => exact .inl rfl
  | error hk hk' => exact .inl (hk'.trans hk.symm)
  | deep hsigns hk' => exact .inr ⟨hsigns, hk'⟩

theorem Lexed.Alike.malformationIn_parseLexed (h : text.Alike signs true text') :
    malformationIn (Arithmetic.parseLexed text') = malformationIn (Arithmetic.parseLexed text) ∨
      signs = true ∧ malformationIn (Arithmetic.parseLexed text') = some .tooDeep := by
  by_cases hne : text.lexemes = []
  · obtain ⟨htokens, hending⟩ := h
    obtain ⟨lexemes, ending⟩ := text
    obtain ⟨lexemes', ending'⟩ := text'
    have hnil := htokens.eq_nil_iff
    rw [List.map_eq_nil_iff, List.map_eq_nil_iff] at hnil
    cases hne
    cases hnil.mp rfl
    left
    cases hending with
    | finish m n => rfl
    | fault m n hk hk' => exact hk'.trans hk.symm
  · exact (h.parseLexed hne).malformationIn

/-- Similar texts are malformed in the same way, unless free signs make the second nest too deep. -/
theorem Similar.malformationIn_parse (h : Similar signs true cs cs') :
    malformationIn (parse cs') = malformationIn (parse cs) ∨
      signs = true ∧ malformationIn (parse cs') = some .tooDeep :=
  (h.lexed 0 0).malformationIn_parseLexed

/-- A text that is not blank and cannot be parsed is malformed. -/
theorem exists_malformation {e : Error} (hcs : ¬Blanks cs) (h : parse cs = .error e) :
    ∃ k, e.fault.malformation? = some k := by
  have halike : (lex cs).Alike false true (lex cs) := (similar_refl false true cs).lexed 0 0
  by_cases hne : (lex cs).lexemes = []
  · have hending := halike.ending
    have hlex : lex cs = ⟨[], (lex cs).ending⟩ := by rw [← hne]
    have hfail : parseLexed ⟨[], (lex cs).ending⟩ = .error e := by rwa [← hlex]
    cases hend : (lex cs).ending with
    | finish n =>
      rw [hend] at hlex
      cases spells_of_lexFrom hlex with
      | finish hblanks => exact absurd hblanks hcs
    | fault f n =>
      rw [hend] at hending hfail
      cases hending with
      | fault _ _ hk _ =>
        cases hfail
        exact ⟨_, hk⟩
  · have hagree := halike.parseLexed hne
    rw [show parseLexed (lex cs) = .error e from h] at hagree
    cases hagree with
    | error hk _ => exact ⟨_, hk⟩
    | deep hsigns _ => cases hsigns

end Texts

end Tabletop.Arithmetic

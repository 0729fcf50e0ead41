import Tabletop.Proofs.Grammar
import Tabletop.Proofs.Spelling

/-!
The reader of expressions against the grammar. A reader is sound for a language of sentences when whatever
it reads is a sentence of it, with the expression that the sentence stands for, and complete when it reads
every sentence that is followed by something that cannot continue it. Both are shown once for chains and
once for argument lists, whatever their operands; a factor is then settled by induction on the number of
levels that may still be opened. Main statement: a text is parsed iff it spells a sentence that nests at
most 256 deep.
-/

namespace Tabletop.Arithmetic

theorem exists_of_bind_eq_ok {ε α β : Type} {x : Except ε α} {f : α → Except ε β} {b : β}
    (h : (x >>= f) = .ok b) : ∃ a, x = .ok a ∧ f a = .ok b := by
  cases x with
  | error e => cases h
  | ok a => exact ⟨a, rfl, h⟩

abbrev Language := List Token → Expr → Prop

namespace Window

/-- The tokens that have not been taken. -/
def ahead (w : Window) : List Token := w.rest.map Lexeme.token

/-- The token in hand and those that have not been taken. -/
def tokens (w : Window) : List Token := w.current :: w.ahead

/-- The lexemes end with `e`, and they run out only if that is the end of the text. -/
def EndsWith (e : Ending) (w : Window) : Prop := w.ending = e ∧ (w.rest = [] → ∃ n, e = .finish n)

theorem peek_eq_headD (w : Window) : w.peek = w.ahead.headD .finish := by
  obtain ⟨current, rest, ending⟩ := w
  cases rest <;> rfl

theorem tokens_of_advance {e : Ending} {w : Window} {w' : { w' : Window // w'.size ≤ w.size - 1 }}
    (hw : w.EndsWith e) (h : w.advance = .ok w') :
    w'.val.EndsWith e ∧ w'.val.tokens = w.peek :: w.ahead.tail := by
  obtain ⟨current, rest, ending⟩ := w
  obtain ⟨rfl, hrest⟩ := hw
  rcases rest with _ | ⟨l, _ | ⟨l', ls⟩⟩
  · cases h
    exact ⟨⟨rfl, hrest⟩, rfl⟩
  · cases ending with
    | finish n =>
      cases h
      exact ⟨⟨rfl, fun _ => ⟨n, rfl⟩⟩, rfl⟩
    | fault f n => cases h
  · cases ending with
    | finish n =>
      cases h
      exact ⟨⟨rfl, fun _ => ⟨n, rfl⟩⟩, rfl⟩
    | fault f n =>
      cases h
      exact ⟨⟨rfl, fun h => by cases h⟩, rfl⟩

theorem ahead_of_rest {e : Ending} {w : Window} {w' : { w' : Window // w'.size ≤ w.size - 1 }}
    {l : Lexeme} {ls : List Lexeme} (hw : w.EndsWith e) (h : w.advance = .ok w')
    (hrest : w.rest = l :: ls) : w'.val.EndsWith e ∧ w.ahead = l.token :: w'.val.ahead := by
  obtain ⟨hend, htokens⟩ := tokens_of_advance hw h
  refine ⟨hend, ?_⟩
  have hahead : w'.val.ahead = w.ahead.tail := (List.cons.inj htokens).2
  rw [hahead, ahead, hrest]
  rfl

/-- What was taken stood ahead, unless it is the end. -/
theorem ahead_of_advance {e : Ending} {w : Window} {w' : { w' : Window // w'.size ≤ w.size - 1 }}
    (hw : w.EndsWith e) (h : w.advance = .ok w') (hc : w'.val.current ≠ .finish) :
    w.ahead = w'.val.tokens := by
  have htokens := (tokens_of_advance hw h).2
  rw [peek_eq_headD] at htokens
  cases hahead : w.ahead with
  | nil =>
    rw [hahead] at htokens
    exact (hc (List.cons.inj htokens).1).elim
  | cons t ts => rw [htokens, hahead]; rfl

/-- Before the end of the text nothing keeps the next token from being taken. -/
theorem advance_of_ahead {n : Nat} {w : Window} {t : Token} {ts : List Token}
    (hw : w.EndsWith (.finish n)) (h : w.ahead = t :: ts) :
    ∃ w', w.advance = .ok w' ∧ w'.val.EndsWith (.finish n) ∧ w'.val.tokens = t :: ts := by
  obtain ⟨current, rest, ending⟩ := w
  obtain ⟨rfl, -⟩ := hw
  match rest, h with
  | [l], h => exact ⟨_, rfl, ⟨rfl, fun _ => ⟨n, rfl⟩⟩, h⟩
  | l :: l' :: ls, h => exact ⟨_, rfl, ⟨rfl, fun _ => ⟨n, rfl⟩⟩, h⟩

theorem ahead_of_peek {e : Ending} {w : Window} {w' : { w' : Window // w'.size ≤ w.size - 1 }} {t : Token}
    (hw : w.EndsWith e) (h : w.advance = .ok w') (hpeek : w.peek = t) (ht : t ≠ .finish) :
    w'.val.EndsWith e ∧ w.ahead = t :: w'.val.ahead := by
  obtain ⟨hend, htokens⟩ := tokens_of_advance hw h
  rw [hpeek] at htokens
  have hc : w'.val.current = t := (List.cons.inj htokens).1
  refine ⟨hend, ?_⟩
  rw [ahead_of_advance hw h (hc ▸ ht), tokens, hc]

theorem ahead_of_close {e : Ending} {w : Window} {w' : { w' : Window // w'.size ≤ w.size - 1 }}
    (hw : w.EndsWith e) (h : w.close = .ok w') :
    w'.val.EndsWith e ∧ w.ahead = .rightParen :: w'.val.ahead := by
  unfold close at h
  split at h
  · next hpeek => exact ahead_of_peek hw h hpeek (by simp)
  · cases h

theorem close_of_ahead {n : Nat} {w : Window} {ts : List Token}
    (hw : w.EndsWith (.finish n)) (h : w.ahead = .rightParen :: ts) :
    ∃ w', w.close = .ok w' ∧ w'.val.EndsWith (.finish n) ∧ w'.val.ahead = ts := by
  obtain ⟨w', hadv, hend, htokens⟩ := advance_of_ahead hw h
  refine ⟨w', ?_, hend, (List.cons.inj htokens).2⟩
  rw [close, if_pos (by rw [peek_eq_headD, h]; rfl), hadv]

theorem tokens_of_start {text : Lexed} {w : Window} (h : start text = .ok w) :
    w.EndsWith text.ending ∧ w.tokens = text.lexemes.map Lexeme.token := by
  obtain ⟨lexemes, ending⟩ := text
  rcases lexemes with _ | ⟨l, _ | ⟨l', ls⟩⟩
  · cases ending <;> cases h
  · cases ending with
    | finish n =>
      cases h
      exact ⟨⟨rfl, fun _ => ⟨n, rfl⟩⟩, rfl⟩
    | fault f n => cases h
  · cases h
    exact ⟨⟨rfl, fun h => by cases h⟩, rfl⟩

theorem start_of_ne_nil {text : Lexed} {n : Nat} (hend : text.ending = .finish n)
    (h : text.lexemes ≠ []) :
    ∃ w, start text = .ok w ∧ w.EndsWith (.finish n) ∧ w.tokens = text.lexemes.map Lexeme.token := by
  obtain ⟨lexemes, ending⟩ := text
  cases hend
  rcases lexemes with _ | ⟨l, _ | ⟨l', ls⟩⟩
  · exact (h rfl).elim
  · exact ⟨_, rfl, ⟨rfl, fun _ => ⟨n, rfl⟩⟩, rfl⟩
  · exact ⟨_, rfl, ⟨rfl, fun _ => ⟨n, rfl⟩⟩, rfl⟩

end Window

/-- From `w` on, a sentence for `tree` was read, and `w'` is the window behind it. -/
structure Reads (L : Language) (e : Ending) (w : Window) (tree : Expr) (w' : Window) : Prop where
  endsWith : w'.EndsWith e
  started : w.current ≠ .finish
  sentence : ∃ ts, L ts tree ∧ w.tokens = ts ++ w'.ahead

/-- Whatever is read is a sentence of the language. -/
def Sound (read : Phrase) (L : Language) : Prop :=
  ∀ ⦃e : Ending⦄ ⦃w : Window⦄ ⦃r : Parsed w.size⦄, w.EndsWith e → read w = .ok r →
    Reads L e w r.tree r.window

/-- Every sentence is read if the token behind it is one that may follow. -/
def Complete (read : Phrase) (L : Language) (follows : Token → Prop) : Prop :=
  ∀ ⦃n : Nat⦄ ⦃w : Window⦄ ⦃ts rest : List Token⦄ ⦃tree : Expr⦄, w.EndsWith (.finish n) → L ts tree →
    w.tokens = ts ++ rest → (∀ t ∈ rest.head?, follows t) →
      ∃ w' h, read w = .ok ⟨tree, w', h⟩ ∧ w'.EndsWith (.finish n) ∧ w'.ahead = rest

/-- A sentence that is read behind the token in hand. -/
theorem Sound.of_advance {read : Phrase} {L : Language} (hread : Sound read L) {e : Ending}
    {w : Window} {w' : { w' : Window // w'.size ≤ w.size - 1 }} {r : Parsed w'.val.size}
    (hw : w.EndsWith e) (hadv : w.advance = .ok w') (h : read w' = .ok r) :
    r.window.EndsWith e ∧ ∃ ts, L ts r.tree ∧ w.ahead = ts ++ r.window.ahead := by
  obtain ⟨hend, hstarted, ts, hts, htokens⟩ := hread (Window.tokens_of_advance hw hadv).1 h
  exact ⟨hend, ts, hts, (Window.ahead_of_advance hw hadv hstarted).trans htokens⟩

theorem Complete.of_advance {read : Phrase} {L : Language} {follows : Token → Prop}
    (hread : Complete read L follows) (hL : ∀ {ts tree}, L ts tree → ts ≠ []) {n : Nat} {w : Window}
    {ts rest : List Token} {tree : Expr} (hw : w.EndsWith (.finish n)) (hts : L ts tree)
    (h : w.ahead = ts ++ rest) (hrest : ∀ t ∈ rest.head?, follows t) :
    ∃ w₁ r, w.advance = .ok w₁ ∧ read w₁ = .ok r ∧ r.tree = tree ∧
      r.window.EndsWith (.finish n) ∧ r.window.ahead = rest := by
  obtain ⟨t, ts', rfl⟩ := List.exists_cons_of_ne_nil (hL hts)
  obtain ⟨w₁, hadv, hend, htokens⟩ := Window.advance_of_ahead hw h
  obtain ⟨w', hle, hr, hend', hrest'⟩ := hread hend hts htokens hrest
  exact ⟨w₁, ⟨tree, w', hle⟩, hadv, hr, rfl, hend', hrest'⟩

section Chains

variable {op? : Token → Option BinaryOp} {operand : Phrase} {L : Language}

/-- Sentences joined by operators of a kind, grouped to the left. -/
inductive Chain (op? : Token → Option BinaryOp) (L : Language) : Language
  | single {ts : List Token} {e : Expr} : L ts e → Chain op? L ts e
  | more {ts us : List Token} {t : Token} {op : BinaryOp} {e f : Expr} :
      Chain op? L ts e → op? t = some op → L us f → Chain op? L (ts ++ t :: us) (.binary op e f)

theorem chainFrom_sound (hoperand : Sound operand L) {bound : Nat} {left : Expr} {e : Ending}
    {w : Window} {size_le : w.size ≤ bound} {r : Parsed bound} {ts : List Token}
    (hw : w.EndsWith e) (hts : Chain op? L ts left)
    (h : chainFrom op? operand bound left w size_le = .ok r) :
    r.window.EndsWith e ∧ ∃ us, Chain op? L (ts ++ us) r.tree ∧ w.ahead = us ++ r.window.ahead := by
  induction hn : w.size using Nat.strong_induction_on generalizing w left ts with
  | _ n ih =>
    rw [chainFrom] at h
    split at h
    · cases h
      exact ⟨hw, [], by simpa using hts, rfl⟩
    · next l ls hrest =>
      split at h
      · cases h
        exact ⟨hw, [], by simpa using hts, rfl⟩
      · next op hop =>
        obtain ⟨w₁, hadv₁, h⟩ := exists_of_bind_eq_ok h
        obtain ⟨w₂, hadv₂, h⟩ := exists_of_bind_eq_ok h
        obtain ⟨right, hright, h⟩ := exists_of_bind_eq_ok h
        obtain ⟨hw₁, hahead₁⟩ := Window.ahead_of_rest hw hadv₁ hrest
        obtain ⟨hend, us, hus, hahead⟩ := hoperand.of_advance hw₁ hadv₂ hright
        have hlt : right.window.size < n := by
          have := w₁.property; have := w₂.property; have := right.size_le
          simp only [Window.size, hrest, List.length_cons] at *
          omega
        obtain ⟨hend', us', hus', hahead'⟩ := ih _ hlt hend (hts.more hop hus) h rfl
        refine ⟨hend', l.token :: us ++ us', by simpa using hus', ?_⟩
        rw [hahead₁, hahead, hahead']
        simp

theorem Sound.chain (hoperand : Sound operand L) : Sound (chain op? operand) (Chain op? L) := by
  intro e w r hw h
  obtain ⟨first, hfirst, h⟩ := exists_of_bind_eq_ok h
  obtain ⟨hend, hstarted, ts, hts, htokens⟩ := hoperand hw hfirst
  obtain ⟨hend', us, hus, hahead⟩ := chainFrom_sound hoperand hend (.single hts) h
  exact ⟨hend', hstarted, ts ++ us, hus, by rw [htokens, hahead, List.append_assoc]⟩

/-- Reading a chain comes to reading on from its end, whatever follows there. -/
theorem chain_eq_chainFrom {follows : Token → Prop} (hoperand : Complete operand L follows)
    (hfollows : ∀ t op, op? t = some op → follows t) (hL : ∀ {ts tree}, L ts tree → ts ≠ [])
    {n : Nat} {w : Window} {ts rest : List Token} {tree : Expr} (hw : w.EndsWith (.finish n))
    (hts : Chain op? L ts tree) (h : w.tokens = ts ++ rest) (hrest : ∀ t ∈ rest.head?, follows t) :
    ∃ w' hle, chain op? operand w = chainFrom op? operand w.size tree w' hle ∧
      w'.EndsWith (.finish n) ∧ w'.ahead = rest := by
  induction hts generalizing rest with
  | single hts =>
    obtain ⟨w', hle, hr, hend, hahead⟩ := hoperand hw hts h hrest
    exact ⟨w', hle, by rw [chain, hr]; rfl, hend, hahead⟩
  | @more ts us t op left right _ hop hus ih =>
    have hw' : w.tokens = ts ++ (t :: us ++ rest) := by simpa using h
    obtain ⟨w', hle, hchain, hend, hahead⟩ := ih hw' (by simpa using hfollows t op hop)
    obtain ⟨w₁, hadv₁, hend₁, htokens⟩ := Window.advance_of_ahead hend hahead
    have hahead₁ : w₁.val.ahead = us ++ rest := (List.cons.inj htokens).2
    obtain ⟨w₂, r, hadv₂, hr, rfl, hend₂, hahead₂⟩ :=
      hoperand.of_advance hL hend₁ hus hahead₁ hrest
    refine ⟨r.window, ?_, ?_, hend₂, hahead₂⟩
    · have := w₁.property; have := w₂.property; have := r.size_le; omega
    · rw [hchain, chainFrom]
      split
      · next hnil => simp [Window.ahead, hnil] at hahead
      · next l ls hcons =>
        have hl : l.token = t := by simp [Window.ahead, hcons] at hahead; exact hahead.1
        simp only [hl, hop, hadv₁, hadv₂, hr, bind, Except.bind]

theorem Complete.chain {follows : Token → Prop} (hoperand : Complete operand L follows)
    (hfollows : ∀ t op, op? t = some op → follows t) (hL : ∀ {ts tree}, L ts tree → ts ≠ []) :
    Complete (chain op? operand) (Chain op? L) fun t => follows t ∧ op? t = none := by
  intro n w ts rest tree hw hts h hrest
  obtain ⟨w', hle, hchain, hend, hahead⟩ :=
    chain_eq_chainFrom hoperand hfollows hL hw hts h fun t ht => (hrest t ht).1
  refine ⟨w', hle, ?_, hend, hahead⟩
  rw [hchain, chainFrom]
  split
  · rfl
  · next l ls hcons =>
    have hl : rest.head? = some l.token := by rw [← hahead, Window.ahead, hcons]; rfl
    rw [(hrest l.token hl).2]

end Chains

section Arguments

variable {argument : Phrase} {L : Language}

/-- Sentences that commas separate. -/
inductive Arguments (L : Language) : List Token → List Expr → Prop
  | last {ts : List Token} {e : Expr} : L ts e → Arguments L ts [e]
  | more {ts us : List Token} {e : Expr} {es : List Expr} :
      L ts e → Arguments L us es → Arguments L (ts ++ .comma :: us) (e :: es)

theorem arguments_sound (hargument : Sound argument L) {name : String} {bound : Nat} {args : List Expr}
    {e : Ending} {w : Window} {size_le : w.size ≤ bound} {r : Parsed bound} (hw : w.EndsWith e)
    (h : arguments argument name bound args w size_le = .ok r) :
    r.window.EndsWith e ∧ ∃ ts es, Arguments L ts es ∧ r.tree = .call name (args.reverse ++ es) ∧
      w.ahead = ts ++ .rightParen :: r.window.ahead := by
  induction hn : w.size using Nat.strong_induction_on generalizing w args with
  | _ n ih =>
    rw [arguments] at h
    obtain ⟨w₁, hadv₁, h⟩ := exists_of_bind_eq_ok h
    obtain ⟨arg, harg, h⟩ := exists_of_bind_eq_ok h
    obtain ⟨hend, ts, hts, hahead⟩ := hargument.of_advance hw hadv₁ harg
    split at h
    · next start stop ls hcons =>
      obtain ⟨w₂, hadv₂, h⟩ := exists_of_bind_eq_ok h
      obtain ⟨hend₂, hahead₂⟩ := Window.ahead_of_rest hend hadv₂ hcons
      have hlt : w₂.val.size < n := by
        have := w₁.property; have := w₂.property; have := arg.size_le
        simp only [Window.size, hcons, List.length_cons] at *
        omega
      obtain ⟨hend', us, es, hus, htree, hahead'⟩ := ih _ hlt hend₂ h rfl
      refine ⟨hend', ts ++ .comma :: us, arg.tree :: es, .more hts hus, ?_, ?_⟩
      · simpa using htree
      · rw [hahead, hahead₂, hahead']
        simp
    · obtain ⟨w₂, hclose, h⟩ := exists_of_bind_eq_ok h
      obtain ⟨hend', hahead'⟩ := Window.ahead_of_close hend hclose
      cases h
      refine ⟨hend', ts, [arg.tree], .last hts, by simp, ?_⟩
      rw [hahead, hahead']

theorem arguments_complete {follows : Token → Prop} (hargument : Complete argument L follows)
    (hcomma : follows .comma) (hclose : follows .rightParen)
    (hL : ∀ {ts tree}, L ts tree → ts ≠ []) {name : String} {bound n : Nat} {args es : List Expr}
    {w : Window} {size_le : w.size ≤ bound} {ts rest : List Token} (hw : w.EndsWith (.finish n))
    (hts : Arguments L ts es) (h : w.ahead = ts ++ .rightParen :: rest) :
    ∃ r, arguments argument name bound args w size_le = .ok r ∧
      r.tree = .call name (args.reverse ++ es) ∧ r.window.EndsWith (.finish n) ∧
      r.window.ahead = rest := by
  induction hts generalizing w args with
  | @last ts e hts =>
    obtain ⟨w₁, arg, hadv₁, harg, htree, hend, hahead⟩ :=
      hargument.of_advance hL hw hts h (by simpa using hclose)
    obtain ⟨w₂, hclosed, hend', hahead'⟩ := Window.close_of_ahead hend hahead
    have hle : w₂.val.size ≤ bound := by
      have := w₁.property; have := w₂.property; have := arg.size_le; omega
    refine ⟨⟨.call name (arg.tree :: args).reverse, w₂, hle⟩, ?_, by simp [htree], hend', hahead'⟩
    rw [arguments]
    simp only [hadv₁, harg, bind, Except.bind]
    split
    · next hcons => simp [Window.ahead, hcons] at hahead
    · simp only [hclosed]
  | @more ts us e es hts _ ih =>
    have hw' : w.ahead = ts ++ (.comma :: us ++ .rightParen :: rest) := by simpa using h
    obtain ⟨w₁, arg, hadv₁, harg, htree, hend, hahead⟩ :=
      hargument.of_advance hL hw hts hw' (by simpa using hcomma)
    obtain ⟨w₂, hadv₂, hend₂, htokens⟩ := Window.advance_of_ahead hend hahead
    have hle : w₂.val.size ≤ bound := by
      have := w₁.property; have := w₂.property; have := arg.size_le; omega
    obtain ⟨r, hr, hcall, hend', hahead'⟩ :=
      @ih (arg.tree :: args) _ hle hend₂ (List.cons.inj htokens).2
    refine ⟨r, ?_, by simpa [htree] using hcall, hend', hahead'⟩
    rw [arguments]
    simp only [hadv₁, harg, bind, Except.bind]
    split
    · simp only [hadv₂, hr]
    · next hne =>
      obtain ⟨l, ls, hcons⟩ : ∃ l ls, arg.window.rest = l :: ls := by
        cases hrest : arg.window.rest with
        | nil => simp [Window.ahead, hrest] at hahead
        | cons l ls => exact ⟨l, ls, rfl⟩
      obtain ⟨token, start, stop⟩ := l
      simp only [Window.ahead, hcons, List.map_cons, List.cons_append, List.cons.injEq] at hahead
      exact (hne start stop ls (by rw [hcons, hahead.1])).elim

end Arguments

/-- The sentences of a category that nest at most `n` deep. -/
def factors (n : Nat) : Language := fun ts e =>
  ∃ d : Derivation Numeral .factor, d.nesting ≤ n ∧ d.tokens = ts ∧ d.tree = e

@[inherit_doc factors]
def terms (n : Nat) : Language := fun ts e =>
  ∃ d : Derivation Numeral .term, d.nesting ≤ n ∧ d.tokens = ts ∧ d.tree = e

@[inherit_doc factors]
def expressions (n : Nat) : Language := fun ts e =>
  ∃ d : Derivation Numeral .expression, d.nesting ≤ n ∧ d.tokens = ts ∧ d.tree = e

section Sentences

variable {n : Nat}

theorem Derivation.chain_of_term : (d : Derivation Numeral .term) → d.nesting ≤ n →
    Chain productOp? (factors n) d.tokens d.tree
  | .factor d, h => .single ⟨d, h, rfl, rfl⟩
  | .product l op r, h => by
    have hl := chain_of_term l (le_trans (le_max_left ..) h)
    have hr : factors n r.tokens r.tree := ⟨r, le_trans (le_max_right ..) h, rfl, rfl⟩
    rw [tokens_product]
    exact hl.more (productOp?_eq_some.mpr ⟨op, rfl, rfl⟩) hr

theorem Derivation.chain_of_expression : (d : Derivation Numeral .expression) → d.nesting ≤ n →
    Chain sumOp? (terms n) d.tokens d.tree
  | .term d, h => .single ⟨d, h, rfl, rfl⟩
  | .sum l op r, h => by
    have hl := chain_of_expression l (le_trans (le_max_left ..) h)
    have hr : terms n r.tokens r.tree := ⟨r, le_trans (le_max_right ..) h, rfl, rfl⟩
    rw [tokens_sum]
    exact hl.more (sumOp?_eq_some.mpr ⟨op, rfl, rfl⟩) hr

theorem Derivation.arguments_of_arguments : (d : Derivation Numeral .arguments) → d.nesting ≤ n →
    Arguments (expressions n) d.tokens d.tree
  | .last d, h => .last ⟨d, h, rfl, rfl⟩
  | .more d ds, h => by
    have hd : expressions n d.tokens d.tree := ⟨d, le_trans (le_max_left ..) h, rfl, rfl⟩
    have hds := arguments_of_arguments ds (le_trans (le_max_right ..) h)
    rw [tokens_more]
    exact .more hd hds

theorem chain_factors : Chain productOp? (factors n) = terms n := by
  funext ts e
  refine propext ⟨fun h => ?_, fun ⟨d, hd, hts, he⟩ => hts ▸ he ▸ d.chain_of_term hd⟩
  induction h with
  | single h =>
    obtain ⟨d, hd, rfl, rfl⟩ := h
    exact ⟨.factor d, hd, rfl, rfl⟩
  | more _ hop h ih =>
    obtain ⟨l, hl, rfl, rfl⟩ := ih
    obtain ⟨r, hr, rfl, rfl⟩ := h
    obtain ⟨op, rfl, rfl⟩ := productOp?_eq_some.mp hop
    exact ⟨.product l op r, max_le hl hr, by simp, rfl⟩

theorem chain_terms : Chain sumOp? (terms n) = expressions n := by
  funext ts e
  refine propext ⟨fun h => ?_, fun ⟨d, hd, hts, he⟩ => hts ▸ he ▸ d.chain_of_expression hd⟩
  induction h with
  | single h =>
    obtain ⟨d, hd, rfl, rfl⟩ := h
    exact ⟨.term d, hd, rfl, rfl⟩
  | more _ hop h ih =>
    obtain ⟨l, hl, rfl, rfl⟩ := ih
    obtain ⟨r, hr, rfl, rfl⟩ := h
    obtain ⟨op, rfl, rfl⟩ := sumOp?_eq_some.mp hop
    exact ⟨.sum l op r, max_le hl hr, by simp, rfl⟩

theorem exists_of_arguments {ts : List Token} {es : List Expr} (h : Arguments (expressions n) ts es) :
    ∃ d : Derivation Numeral .arguments, d.nesting ≤ n ∧ d.tokens = ts ∧ d.tree = es := by
  induction h with
  | last h =>
    obtain ⟨d, hd, rfl, rfl⟩ := h
    exact ⟨.last d, hd, rfl, rfl⟩
  | more h _ ih =>
    obtain ⟨d, hd, rfl, rfl⟩ := h
    obtain ⟨ds, hds, rfl, rfl⟩ := ih
    exact ⟨.more d ds, max_le hd hds, by simp, rfl⟩

theorem Sound.expression {inner : Phrase} (h : Sound inner (factors n)) :
    Sound (expression inner) (expressions n) := by
  rw [← chain_terms, ← chain_factors]
  exact h.chain.chain

theorem call_sound {argument : Phrase} (hargument : Sound argument (expressions n)) {name : String}
    {e : Ending} {w : Window} {r : Parsed w.size} (hw : w.EndsWith e)
    (hc : w.current = .ident name) (h : call argument name w = .ok r) :
    Reads (factors (n + 1)) e w r.tree r.window := by
  unfold call at h
  split at h
  · next hopen =>
    obtain ⟨w₁, hadv₁, h⟩ := exists_of_bind_eq_ok h
    obtain ⟨hend₁, hahead₁⟩ := Window.ahead_of_peek hw hadv₁ hopen (by simp)
    split at h
    · next hclose =>
      obtain ⟨w₂, hadv₂, h⟩ := exists_of_bind_eq_ok h
      obtain ⟨hend₂, hahead₂⟩ := Window.ahead_of_peek hend₁ hadv₂ hclose (by simp)
      cases h
      refine ⟨hend₂, by simp [hc], _, ⟨.callEmpty name, Nat.le_add_left .., rfl, rfl⟩, ?_⟩
      rw [Window.tokens, hc, hahead₁, hahead₂]
      rfl
    · obtain ⟨hend, ts, es, hes, htree, hahead⟩ := arguments_sound hargument hend₁ h
      obtain ⟨ds, hds, rfl, rfl⟩ := exists_of_arguments hes
      refine ⟨hend, by simp [hc], _, ⟨.call name ds, Nat.succ_le_succ hds, rfl, htree.symm⟩, ?_⟩
      rw [Window.tokens, hc, hahead₁, hahead]
      simp
  · cases h

theorem factorWithin_sound {inner : Phrase} (hinner : Sound inner (factors n)) :
    Sound (factorWithin (some inner)) (factors (n + 1)) := by
  intro e w r hw h
  unfold factorWithin at h
  dsimp only at h
  split at h
  · next m hc =>
    cases h
    exact ⟨hw, by simp [hc], [.number m], ⟨.operand m, Nat.zero_le _, rfl, rfl⟩,
      by simp [Window.tokens, hc]⟩
  · next hc =>
    obtain ⟨w₁, hadv, h⟩ := exists_of_bind_eq_ok h
    obtain ⟨operand, hoperand, h⟩ := exists_of_bind_eq_ok h
    obtain ⟨hend, ts, ⟨d, hd, rfl, htree⟩, hahead⟩ := hinner.of_advance hw hadv hoperand
    cases h
    refine ⟨hend, by simp [hc], _,
      ⟨.signed .minus d, Nat.succ_le_succ hd, rfl, congrArg Expr.neg htree⟩, ?_⟩
    simp [Window.tokens, hc, hahead, Sign.token]
  · next hc =>
    obtain ⟨w₁, hadv, h⟩ := exists_of_bind_eq_ok h
    obtain ⟨operand, hoperand, h⟩ := exists_of_bind_eq_ok h
    obtain ⟨hend, ts, ⟨d, hd, rfl, htree⟩, hahead⟩ := hinner.of_advance hw hadv hoperand
    cases h
    refine ⟨hend, by simp [hc], _, ⟨.signed .plus d, Nat.succ_le_succ hd, rfl, htree⟩, ?_⟩
    simp [Window.tokens, hc, hahead, Sign.token]
  · next hc =>
    obtain ⟨w₁, hadv, h⟩ := exists_of_bind_eq_ok h
    obtain ⟨inside, hinside, h⟩ := exists_of_bind_eq_ok h
    obtain ⟨w₂, hclose, h⟩ := exists_of_bind_eq_ok h
    obtain ⟨hend, ts, ⟨d, hd, rfl, htree⟩, hahead⟩ := hinner.expression.of_advance hw hadv hinside
    obtain ⟨hend', hahead'⟩ := Window.ahead_of_close hend hclose
    cases h
    refine ⟨hend', by simp [hc], _, ⟨.group d, Nat.succ_le_succ hd, rfl, htree⟩, ?_⟩
    simp [Window.tokens, hc, hahead, hahead']
  · next name hc => exact call_sound hinner.expression hw hc h
  · cases h

theorem factor_sound : ∀ n, Sound (factor n) (factors n)
  | 0 => by
    intro e w r hw h
    rw [factor_zero, factorWithin] at h
    dsimp only at h
    split at h
    · next m hc =>
      cases h
      exact ⟨hw, by simp [hc], [.number m], ⟨.operand m, Nat.zero_le _, rfl, rfl⟩,
        by simp [Window.tokens, hc]⟩
    all_goals cases h
  | n + 1 => factorWithin_sound (factor_sound n)

theorem factors_ne_nil {ts : List Token} {tree : Expr} (h : factors n ts tree) : ts ≠ [] := by
  obtain ⟨d, -, rfl, -⟩ := h
  exact d.tokens_ne_nil

theorem terms_ne_nil {ts : List Token} {tree : Expr} (h : terms n ts tree) : ts ≠ [] := by
  obtain ⟨d, -, rfl, -⟩ := h
  exact d.tokens_ne_nil

theorem expressions_ne_nil {ts : List Token} {tree : Expr} (h : expressions n ts tree) : ts ≠ [] := by
  obtain ⟨d, -, rfl, -⟩ := h
  exact d.tokens_ne_nil

/-- No operator, and so nothing that an expression goes on with. -/
def Closing (t : Token) : Prop := productOp? t = none ∧ sumOp? t = none

theorem Complete.term {inner : Phrase} (h : Complete inner (factors n) fun _ => True) :
    Complete (term inner) (terms n) fun t => productOp? t = none := by
  intro m w ts rest tree hw hts htokens hrest
  rw [← chain_factors] at hts
  exact h.chain (fun _ _ _ => trivial) factors_ne_nil hw hts htokens fun t ht => ⟨trivial, hrest t ht⟩

theorem Complete.expression {inner : Phrase} (h : Complete inner (factors n) fun _ => True) :
    Complete (expression inner) (expressions n) Closing := by
  intro m w ts rest tree hw hts htokens hrest
  rw [← chain_terms] at hts
  refine h.term.chain (fun t op hop => ?_) terms_ne_nil hw hts htokens hrest
  obtain ⟨s, rfl, -⟩ := sumOp?_eq_some.mp hop
  cases s <;> rfl

theorem call_complete {argument : Phrase} (hargument : Complete argument (expressions n) Closing)
    {name : String} {m : Nat} {w : Window} {ts rest : List Token} {es : List Expr}
    (hw : w.EndsWith (.finish m)) (hes : Arguments (expressions n) ts es)
    (h : w.ahead = .leftParen :: (ts ++ .rightParen :: rest)) :
    ∃ r, call argument name w = .ok r ∧ r.tree = .call name es ∧ r.window.EndsWith (.finish m) ∧
      r.window.ahead = rest := by
  obtain ⟨w₁, hadv₁, hend₁, htokens₁⟩ := Window.advance_of_ahead hw h
  have hahead₁ : w₁.val.ahead = ts ++ .rightParen :: rest := (List.cons.inj htokens₁).2
  have hle : w₁.val.size ≤ w.size := by have := w₁.property; omega
  obtain ⟨r, hr, hrest⟩ :=
    @arguments_complete _ _ Closing hargument ⟨rfl, rfl⟩ ⟨rfl, rfl⟩ expressions_ne_nil name w.size m []
      _ _ hle _ _ hend₁ hes hahead₁
  refine ⟨r, ?_, by simpa using hrest⟩
  have hopen : w.peek = .leftParen := by rw [Window.peek_eq_headD, h]; rfl
  have hclose : w₁.val.peek ≠ .rightParen := by
    obtain ⟨ds, -, rfl, -⟩ := exists_of_arguments hes
    obtain ⟨t, us, hus, ht⟩ := ds.tokens_eq_cons
    rwa [Window.peek_eq_headD, hahead₁, hus]
  simp only [call, if_pos hopen, hadv₁, if_neg hclose, hr, bind, Except.bind]

theorem factorWithin_complete {inner : Phrase} (hinner : Complete inner (factors n) fun _ => True) :
    Complete (factorWithin (some inner)) (factors (n + 1)) fun _ => True := by
  rintro m w _ rest _ hw ⟨d, hd, rfl, rfl⟩ htokens -
  cases d with
  | operand x =>
    obtain ⟨hc, hrest⟩ := List.cons.inj htokens
    refine ⟨w, le_rfl, ?_, hw, hrest⟩
    simp only [factorWithin, hc]
    rfl
  | signed s d =>
    rw [Derivation.tokens_signed, List.cons_append] at htokens
    obtain ⟨hc, hahead⟩ := List.cons.inj htokens
    have hfactor : factors n d.tokens d.tree := ⟨d, Nat.le_of_succ_le_succ hd, rfl, rfl⟩
    obtain ⟨w₁, r, hadv, hr, htree, hend, hrest⟩ :=
      hinner.of_advance factors_ne_nil hw hfactor hahead (by simp)
    have hle : r.window.size ≤ w.size := by
      have := w₁.property; have := r.size_le; omega
    refine ⟨r.window, hle, ?_, hend, hrest⟩
    cases s <;> simp only [factorWithin, hc, Sign.token, hadv, hr, bind, Except.bind] <;>
      simp only [Derivation.tree, htree]
  | group d =>
    rw [Derivation.tokens_group, List.cons_append, List.append_assoc] at htokens
    obtain ⟨hc, hahead⟩ := List.cons.inj htokens
    have hexpression : expressions n d.tokens d.tree := ⟨d, Nat.le_of_succ_le_succ hd, rfl, rfl⟩
    obtain ⟨w₁, r, hadv, hr, htree, hend, hclosing⟩ :=
      hinner.expression.of_advance expressions_ne_nil hw hexpression hahead
        (by simp [Closing, productOp?, sumOp?])
    obtain ⟨w₂, hclose, hend₂, hrest⟩ := Window.close_of_ahead hend hclosing
    have hle : w₂.val.size ≤ w.size := by
      have := w₁.property; have := w₂.property; have := r.size_le; omega
    refine ⟨w₂, hle, ?_, hend₂, hrest⟩
    simp only [factorWithin, hc, hadv, hr, hclose, bind, Except.bind]
    simp only [Derivation.tree, htree]
  | callEmpty name =>
    rw [Derivation.tokens_callEmpty, List.cons_append] at htokens
    obtain ⟨hc, hahead⟩ := List.cons.inj htokens
    obtain ⟨w₁, hadv₁, hend₁, htokens₁⟩ := Window.advance_of_ahead hw hahead
    obtain ⟨hc₁, hahead₁⟩ := List.cons.inj htokens₁
    obtain ⟨w₂, hadv₂, hend₂, htokens₂⟩ := Window.advance_of_ahead hend₁ hahead₁
    have hle : w₂.val.size ≤ w.size := by
      have := w₁.property; have := w₂.property; omega
    refine ⟨w₂, hle, ?_, hend₂, (List.cons.inj htokens₂).2⟩
    have hopen : w.peek = .leftParen := by rw [Window.peek_eq_headD, hahead]; rfl
    have hclose : w₁.val.peek = .rightParen := by rw [Window.peek_eq_headD, hahead₁]; rfl
    simp only [factorWithin, hc, call, if_pos hopen, hadv₁, if_pos hclose, hadv₂, bind, Except.bind]
    rfl
  | call name ds =>
    rw [Derivation.tokens_call] at htokens
    obtain ⟨hc, hahead⟩ := List.cons.inj htokens
    have hes := ds.arguments_of_arguments (Nat.le_of_succ_le_succ hd)
    obtain ⟨r, hr, htree, hend, hrest⟩ :=
      @call_complete _ _ hinner.expression name _ _ _ rest _ hw hes (by simpa using hahead)
    refine ⟨r.window, r.size_le, ?_, hend, hrest⟩
    simp only [factorWithin, hc, hr]
    simp only [Derivation.tree, ← htree]

theorem factor_complete : ∀ n, Complete (factor n) (factors n) fun _ => True
  | 0 => by
    rintro m w _ rest _ hw ⟨d, hd, rfl, rfl⟩ htokens -
    cases d with
    | operand x =>
      obtain ⟨hc, hrest⟩ := List.cons.inj htokens
      refine ⟨w, le_rfl, ?_, hw, hrest⟩
      simp only [factor_zero, factorWithin, hc]
      rfl
    | _ => simp [Derivation.nesting] at hd
  | n + 1 => factorWithin_complete (factor_complete n)

end Sentences

theorem parseLexed_sound {text : Lexed} {e : Expr} (h : parseLexed text = .ok e) :
    ∃ m, text.ending = .finish m ∧ expressions maxNesting (text.lexemes.map Lexeme.token) e := by
  obtain ⟨w, hstart, h⟩ := exists_of_bind_eq_ok h
  obtain ⟨whole, hwhole, h⟩ := exists_of_bind_eq_ok h
  obtain ⟨hend, htokens⟩ := Window.tokens_of_start hstart
  obtain ⟨⟨hending, hlast⟩, -, ts, hts, hread⟩ := (factor_sound maxNesting).expression hend hwhole
  split at h
  · next hnil =>
    cases h
    obtain ⟨m, hm⟩ := hlast hnil
    have hall : text.lexemes.map Lexeme.token = ts := by
      rw [← htokens, hread, Window.ahead, hnil]; simp
    exact ⟨m, hm, hall ▸ hts⟩
  · cases h

theorem parseLexed_complete {text : Lexed} {m : Nat} {e : Expr} (hend : text.ending = .finish m)
    (h : expressions maxNesting (text.lexemes.map Lexeme.token) e) : parseLexed text = .ok e := by
  obtain ⟨w, hstart, hw, htokens⟩ := Window.start_of_ne_nil hend (by simpa using expressions_ne_nil h)
  rw [← List.append_nil (text.lexemes.map Lexeme.token)] at htokens
  obtain ⟨w', hle, hread, -, hahead⟩ :=
    (factor_complete maxNesting).expression hw h htokens (by simp)
  have hrest : w'.rest = [] := by simpa [Window.ahead] using hahead
  simp only [parseLexed, hstart, hread, bind, Except.bind, hrest]

/-- The grammar leaves no choice: what a sentence stands for does not depend on its derivation. -/
theorem Derivation.tree_congr {d d' : Derivation Numeral .expression} (h : d.tokens = d'.tokens) :
    d.tree = d'.tree := by
  obtain ⟨t, ts, hd, -⟩ := d.tokens_eq_cons
  let w : Window := ⟨t, ts.map fun t => ⟨t, 0, 0⟩, .finish 0⟩
  have hw : w.EndsWith (.finish 0) := ⟨rfl, fun _ => ⟨0, rfl⟩⟩
  have htokens : w.tokens = d.tokens ++ [] := by
    simp [w, Window.tokens, Window.ahead, hd, Function.comp_def]
  have hread := (factor_complete (max d.nesting d'.nesting)).expression
  obtain ⟨_, _, hr, -⟩ := hread hw ⟨d, le_max_left .., rfl, rfl⟩ htokens (by simp)
  obtain ⟨_, _, hr', -⟩ := hread hw ⟨d', le_max_right .., h.symm, rfl⟩ htokens (by simp)
  rw [hr, Except.ok.injEq, Parsed.mk.injEq] at hr'
  exact hr'.1

theorem Spells.congr {ts us : List Token} {cs : List Char} (hts : Spells ts cs) (hus : Spells us cs) :
    ts = us := by
  obtain ⟨ls, m, hls, rfl⟩ := spells_iff_lex.mp hts
  obtain ⟨ls', m', hls', rfl⟩ := spells_iff_lex.mp hus
  rw [hls, Lexed.mk.injEq] at hls'
  rw [hls'.1]

theorem parse_of_spells {d : Derivation Numeral .expression} {cs : List Char} (h : Spells d.tokens cs)
    (hd : d.nesting ≤ maxNesting) : parse cs = .ok d.tree := by
  obtain ⟨ls, m, hlex, hls⟩ := spells_iff_lex.mp h
  exact parseLexed_complete (by rw [hlex]) (by rw [hlex, hls]; exact ⟨d, hd, rfl, rfl⟩)

theorem spells_of_parse {cs : List Char} {e : Expr} (h : parse cs = .ok e) :
    ∃ d : Derivation Numeral .expression, Spells d.tokens cs ∧ d.nesting ≤ maxNesting ∧ d.tree = e := by
  obtain ⟨m, hend, d, hd, htokens, rfl⟩ := parseLexed_sound h
  refine ⟨d, ?_, hd, rfl⟩
  rw [htokens]
  exact spells_iff_lex.mpr ⟨_, m, by rw [← hend], rfl⟩

/-- A text is parsed iff it spells a sentence of the grammar that nests at most 256 deep, and the result is
the expression that the sentence stands for in every derivation. -/
theorem parse_eq_ok_iff (text : String) (e : Expr) :
    parse text.toList = .ok e ↔
      ∃ d : Derivation Numeral .expression,
        Spells d.tokens text.toList ∧ d.nesting ≤ 256 ∧ d.tree = e ∧
          ∀ d' : Derivation Numeral .expression, Spells d'.tokens text.toList → d'.tree = e := by
  constructor
  · intro h
    obtain ⟨d, hspells, hd, rfl⟩ := spells_of_parse h
    exact ⟨d, hspells, hd, rfl, fun d' hd' => Derivation.tree_congr (hd'.congr hspells)⟩
  · rintro ⟨d, hspells, hd, rfl, -⟩
    exact parse_of_spells hspells hd

end Tabletop.Arithmetic

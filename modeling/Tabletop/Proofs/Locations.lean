import Tabletop.Arithmetic.Evaluation
import Tabletop.Proofs.Refusals

/-!
Where errors are. What is wrong with a text is located in it, and what is wrong with a value is not. Main statements:
an error has a position just if it is one of the text; the position of a character, of a number or of what is left
over is that of the culprit; but that of an unexpected token is the end of the token behind it, or of the text.
-/

namespace Tabletop.Arithmetic

section Messages

/-- The text begins by naming a position. -/
def NamesPosition (message : String) : Prop := ∃ rest, message = "at position " ++ rest

theorem head?_append_of_head? {s : String} {c : Char} (h : s.toList.head? = some c) (s' : String) :
    (s ++ s').toList.head? = some c := by
  rw [String.toList_append, List.head?_append, h, Option.some_or]

theorem Fault.message_unexpectedToken (t : Token) : ∃ s, (unexpectedToken t).message = "unexpected token: " ++ s := by
  cases t <;> exact ⟨_, rfl⟩

theorem Fault.head?_message (f : Fault) : ∃ c, f.message.toList.head? = some c ∧ c ≠ 'a' := by
  cases f with
  | empty => exact ⟨'e', by decide, by decide⟩
  | unexpectedChar c => exact ⟨'u', head?_append_of_head? (head?_append_of_head? (by decide) _) _, by decide⟩
  | number text => exact ⟨'i', head?_append_of_head? (by decide) _, by decide⟩
  | unexpectedToken t =>
    obtain ⟨s, hs⟩ := message_unexpectedToken t
    rw [hs]
    exact ⟨'u', head?_append_of_head? (by decide) _, by decide⟩
  | unclosedParenthesis => exact ⟨'p', by decide, by decide⟩
  | trailingInput t => exact ⟨'t', head?_append_of_head? (by decide) _, by decide⟩
  | tooDeep limit => exact ⟨'e', head?_append_of_head? (head?_append_of_head? (by decide) _) _, by decide⟩
  | value f =>
    cases f with
    | divisionByZero => exact ⟨'d', by decide, by decide⟩
    | unknownFunction name => exact ⟨'u', head?_append_of_head? (by decide) _, by decide⟩
    | arity f given =>
      refine ⟨'f', ?_, by decide⟩
      repeat apply head?_append_of_head?
      decide

theorem Fault.not_namesPosition (f : Fault) : ¬NamesPosition f.message := by
  rintro ⟨rest, h⟩
  obtain ⟨c, hc, hne⟩ := f.head?_message
  rw [h, head?_append_of_head? (by decide : "at position ".toList.head? = some 'a')] at hc
  exact hne (Option.some.inj hc).symm

theorem Fault.malformation?_eq_none_iff {f : Fault} : f.malformation? = none ↔ f = .empty ∨ ∃ v, f = .value v := by
  cases f <;> simp [Fault.malformation?]

end Messages

/-- Values need not be compared to tell an error. -/
instance decidableEqError {ε α : Type} [DecidableEq ε] (x : Except ε α) (e : ε) : Decidable (x = .error e) :=
  match x with
  | .ok _ => .isFalse nofun
  | .error e' => decidable_of_iff (e' = e) (Except.error.injEq e' e ▸ Iff.rfl)

section Parsing

variable {cs : List Char} {read : List Lexeme} {w : Window} {e : Error}

theorem Window.peek_eq (w : Window) : w.peek = (w.rest.map Lexeme.token).headD .finish := by
  unfold peek
  split <;> simp [*]

/-- What was read ends with the token ahead, or with the text. -/
theorem Window.Behind.position_eq (h : w.Behind (lex cs) read) :
    w.position = (w.rest.head?.map Lexeme.stop).getD cs.length := by
  obtain ⟨-, hending, hlast⟩ := h
  unfold position
  split
  · next hrest =>
    obtain ⟨m, hm⟩ := hlast hrest
    have hlex : lexFrom 0 cs = ⟨(lex cs).lexemes, .finish m⟩ := by rw [← hm]; rfl
    have hfinish : m = 0 + cs.length := finish_eq hlex
    rw [hrest, hending, hm]
    simpa [Ending.position] using hfinish
  · next hrest =>
    rw [hrest]
    rfl

theorem Window.Behind.position_le (h : w.Behind (lex cs) read) : w.position ≤ cs.length := by
  rw [h.position_eq]
  cases hrest : w.rest with
  | nil => exact Nat.le_refl _
  | cons l ls =>
    have hmem : l ∈ (lex cs).lexemes := by rw [h.lexemes, hrest]; simp
    exact (standsIn_of_mem hmem).start_lt_stop.2

/-- What a text is refused for has a position in the text. -/
theorem Refused.exists_position (h : Refused (lex cs) e) :
    (∃ p, e.position = some p ∧ p ≤ cs.length) ∧ ∃ k, e.fault.malformation? = some k := by
  cases h with
  | @lexeme fault position hending =>
    have hle := ending_position_le cs
    rw [hending] at hle
    refine ⟨⟨position, rfl, hle⟩, ?_⟩
    obtain ⟨pre, rest, -, -, hstops⟩ := stops_of_ending hending
    cases hstops <;> exact ⟨_, rfl⟩
  | token _ hat _ =>
    obtain ⟨read, hbehind⟩ := hat.exists_behind
    exact ⟨⟨_, rfl, hbehind.position_le⟩, _, rfl⟩
  | unclosed hbehind => exact ⟨⟨_, rfl, hbehind.position_le⟩, _, rfl⟩
  | deep hat =>
    obtain ⟨read, hbehind⟩ := hat.exists_behind
    exact ⟨⟨_, rfl, hbehind.position_le⟩, _, rfl⟩
  | trailing hlexemes =>
    exact ⟨⟨_, rfl, (standsIn_of_mem (by rw [hlexemes]; simp)).start_lt_stop.2⟩, _, rfl⟩

/-- A text that cannot be parsed is blank, or there is a reason to refuse it. -/
theorem parse_eq_error (h : parse cs = .error e) : Blanks cs ∧ e = ⟨.empty, none⟩ ∨ Refused (lex cs) e := by
  refine (refused_of_parseLexed h).imp_left ?_
  rintro ⟨hnil, ⟨n, hending⟩, rfl⟩
  have hlex : lexFrom 0 cs = ⟨[], .finish n⟩ := by rw [← hnil, ← hending]; rfl
  cases spells_of_lexFrom hlex with
  | finish hblanks => exact ⟨hblanks, rfl⟩

theorem parse_of_blanks (h : Blanks cs) : parse cs = .error ⟨.empty, none⟩ := by
  have hlex : lex cs = ⟨[], .finish (0 + cs.length)⟩ := lexFrom_of_ending (step_of_blanks 0 h)
  rw [parse, hlex]
  rfl

/-- A text is blank, or there is a reason to refuse it, or its value is at fault. -/
theorem evaluate_eq_error {text : String} (h : evaluate text = .error e) :
    (Blanks text.toList ∧ e = ⟨.empty, none⟩) ∨ Refused (lex text.toList) e ∨ ∃ f, e = ⟨.value f, none⟩ := by
  unfold evaluate at h
  cases hparse : parse text.toList with
  | error e' =>
    rw [hparse] at h
    cases h
    exact (parse_eq_error hparse).imp_right .inl
  | ok tree =>
    rw [hparse] at h
    cases hvalue : tree.evaluate with
    | ok x =>
      simp only [bind, Except.bind, hvalue] at h
      cases h
    | error f =>
      simp only [bind, Except.bind, hvalue] at h
      cases h
      exact .inr (.inr ⟨f, rfl⟩)

end Parsing

section Culprits

variable {cs : List Char} {e : Error}

/-- The fault is that of the ending of the text. -/
theorem Refused.stops {fault : Fault} {position : Option Nat} (h : Refused (lex cs) ⟨fault, position⟩)
    (hfault : (∃ c, fault = .unexpectedChar c) ∨ ∃ t, fault = .number t) :
    ∃ before pre rest p, cs = pre ++ rest ∧ Leads before pre rest ∧ position = some p ∧
      Stops pre.length rest (.fault fault p) := by
  cases h with
  | lexeme hending =>
    obtain ⟨pre, rest, hcs, hleads, hstops⟩ := stops_of_ending hending
    exact ⟨_, pre, rest, _, hcs, hleads, rfl, hstops⟩
  | _ => rcases hfault with ⟨_, ⟨⟩⟩ | ⟨_, ⟨⟩⟩

theorem not_writing {c : Char} (hmark : Token.ofChar? c = none) (hpart : Numeral.isPart c = false)
    (halpha : c.isAlpha = false) (t : Token) (run : List Char) : ¬t.Writing (c :: run) := by
  intro h
  cases h with
  | mark hc =>
    rw [hmark] at hc
    cases hc
  | number hn =>
    rw [parts_of_ofChars? hn c List.mem_cons_self] at hpart
    cases hpart
  | ident hc =>
    rw [hc] at halpha
    cases halpha

theorem Refused.unexpectedChar {c : Char} {position : Option Nat}
    (h : Refused (lex cs) ⟨.unexpectedChar c, position⟩) :
    ∃ tokens pre post, cs = pre ++ c :: post ∧ position = some pre.length ∧ Spells tokens pre ∧
      Text.isBlank c = false ∧ ∀ (t : Token) (run : List Char), ¬t.Writing (c :: run) := by
  obtain ⟨before, pre, rest, p, rfl, hleads, rfl, hstops⟩ := h.stops (.inl ⟨c, rfl⟩)
  cases hstops with
  | @char gap post _ hgap hblank hmark hpart halpha =>
    refine ⟨_, pre ++ gap, post, by simp, ?_, hleads.spells.append_blanks hgap, hblank, not_writing hmark hpart halpha⟩
    rw [List.length_append]

theorem noDigit_or_points_of_ofChars? {run : List Char} (hparts : ∀ c ∈ run, Numeral.isPart c = true)
    (h : Numeral.ofChars? run = none) : (∀ c ∈ run, c.isDigit = false) ∨ 1 < run.count '.' := by
  have hsome := Numeral.ofChars?_isSome run
  rw [h, Option.isSome_none, eq_comm, Numeral.isWellFormed, Bool.and_eq_false_iff, Bool.and_eq_false_iff] at hsome
  rcases hsome with (hall | hany) | hcount
  · rw [List.all_eq_true.mpr hparts] at hall
    cases hall
  · left
    simpa using hany
  · right
    simpa using hcount

theorem Refused.number {t : String} {position : Option Nat} (h : Refused (lex cs) ⟨.number t, position⟩) :
    ∃ pre run post, cs = pre ++ run ++ post ∧ t = String.ofList run ∧ position = some (pre ++ run).length ∧
      run ≠ [] ∧ (∀ c ∈ run, Numeral.isPart c = true) ∧
      ((∀ c ∈ run, c.isDigit = false) ∨ 1 < run.count '.') ∧
      (∀ c ∈ post.head?, Numeral.isPart c = false) ∧
      ∀ c ∈ pre.getLast?, Numeral.isPart c = true → c.isDigit = true ∧
        ∃ front letter name, pre = front ++ letter :: name ∧ letter.isAlpha = true ∧ ∀ x ∈ name, x.isAlphanum = true := by
  obtain ⟨before, pre, rest, p, rfl, hleads, rfl, hstops⟩ := h.stops (.inr ⟨t, rfl⟩)
  cases hstops with
  | @number gap run post hgap hne hparts hnone hpost =>
    refine ⟨pre ++ gap, run, post, by simp, rfl, ?_, hne, hparts, noDigit_or_points_of_ofChars? hparts hnone, hpost, ?_⟩
    · simp only [List.length_append, Nat.add_assoc]
    · intro c hc hpart
      obtain ⟨y, ys, rfl⟩ := List.exists_cons_of_ne_nil hne
      have hgapNil : gap = [] := by
        by_contra hgapNe
        rw [List.getLast?_append_of_ne_nil _ hgapNe] at hc
        have hseparator : IsSeparator c := .inl (hgap c (List.mem_of_getLast? hc))
        rw [hseparator.not_isPart] at hpart
        cases hpart
      subst hgapNil
      rw [List.append_nil] at hc ⊢
      rcases hleads.cut with rfl | ⟨token, front, run, rfl, hmunch⟩
      · cases hc
      · rw [List.getLast?_append_of_ne_nil _ hmunch.1.ne_nil] at hc
        obtain ⟨hdigit, letter, name, rfl, hletter, hname⟩ :=
          hmunch.isPart_getLast (hparts y List.mem_cons_self) hc hpart
        exact ⟨hdigit, front, letter, name, rfl, hletter, hname⟩

theorem Refused.trailingInput {t : Token} {position : Option Nat} (h : Refused (lex cs) ⟨.trailingInput t, position⟩) :
    ∃ tokens pre run post, cs = pre ++ run ++ post ∧ Spells tokens pre ∧ t.Munch run post ∧
      position = some (pre ++ run).length := by
  cases h with
  | lexeme hending =>
    obtain ⟨pre, rest, -, -, hstops⟩ := stops_of_ending hending
    cases hstops
  | trailing hlexemes =>
    obtain ⟨pre, run, post, hcs, hspells, hmunch, -, hstop⟩ := place_of_lexemes hlexemes
    exact ⟨_, pre, run, post, hcs, hspells, hmunch, congrArg some hstop⟩

/-- What a position says of an error in a text. -/
structure Error.LocatedIn (e : Error) (cs : List Char) : Prop where
  located : (∃ p, e.position = some p) ↔ ∃ k, e.fault.malformation? = some k
  unlocated : e.position = none ↔ e.fault = .empty ∨ ∃ f, e.fault = .value f
  /-- A message names the position if there is one, and no other behind it. -/
  once : (∀ p, e.position = some p → ∃ inner, e.message = "at position " ++ Nat.repr p ++ ": " ++ inner ∧
    ¬NamesPosition inner) ∧ (e.position = none → ¬NamesPosition e.message)
  within : ∀ p, e.position = some p → p ≤ cs.length
  /-- The character begins no token, and before it there are nothing but tokens. -/
  unexpectedChar : ∀ c, e.fault = .unexpectedChar c → ∃ tokens pre post, cs = pre ++ c :: post ∧
    e.position = some pre.length ∧ Spells tokens pre ∧ Text.isBlank c = false ∧
    ∀ (t : Token) (run : List Char), ¬t.Writing (c :: run)
  /-- The run that is no number ends at the position and goes as far as it can, unless it stands right behind a name
  that ends in a digit. -/
  number : ∀ t, e.fault = .number t → ∃ pre run post, cs = pre ++ run ++ post ∧ t = String.ofList run ∧
    e.position = some (pre ++ run).length ∧ run ≠ [] ∧ (∀ c ∈ run, Numeral.isPart c = true) ∧
    ((∀ c ∈ run, c.isDigit = false) ∨ 1 < run.count '.') ∧ (∀ c ∈ post.head?, Numeral.isPart c = false) ∧
    ∀ c ∈ pre.getLast?, Numeral.isPart c = true → c.isDigit = true ∧
      ∃ front letter name, pre = front ++ letter :: name ∧ letter.isAlpha = true ∧ ∀ x ∈ name, x.isAlphanum = true
  /-- The token that is left over ends at the position. -/
  trailingInput : ∀ t, e.fault = .trailingInput t → ∃ tokens pre run post, cs = pre ++ run ++ post ∧
    Spells tokens pre ∧ t.Munch run post ∧ e.position = some (pre ++ run).length

theorem Error.message_once (e : Error) :
    (∀ p, e.position = some p → ∃ inner, e.message = "at position " ++ Nat.repr p ++ ": " ++ inner ∧
      ¬NamesPosition inner) ∧ (e.position = none → ¬NamesPosition e.message) := by
  obtain ⟨fault, position⟩ := e
  constructor
  · rintro p ⟨⟩
    exact ⟨fault.message, rfl, fault.not_namesPosition⟩
  · rintro ⟨⟩
    exact fault.not_namesPosition

theorem locatedIn_of_position_none {fault : Fault} (h : fault.malformation? = none) (cs : List Char) :
    Error.LocatedIn ⟨fault, none⟩ cs where
  located := by simp [h]
  unlocated := by simp [← Fault.malformation?_eq_none_iff, h]
  once := Error.message_once _
  within := nofun
  unexpectedChar := by
    rintro c rfl
    cases h
  number := by
    rintro t rfl
    cases h
  trailingInput := by
    rintro t rfl
    cases h

theorem Refused.locatedIn (h : Refused (lex cs) e) : e.LocatedIn cs := by
  obtain ⟨⟨p, hp, hle⟩, k, hk⟩ := h.exists_position
  obtain ⟨fault, position⟩ := e
  cases hp
  exact {
    located := iff_of_true ⟨p, rfl⟩ ⟨k, hk⟩
    unlocated := by
      rw [← Fault.malformation?_eq_none_iff]
      exact iff_of_false nofun (by rw [hk]; nofun)
    once := Error.message_once _
    within := by
      rintro _ ⟨⟩
      exact hle
    unexpectedChar := by
      rintro c rfl
      exact h.unexpectedChar
    number := by
      rintro t rfl
      exact h.number
    trailingInput := by
      rintro t rfl
      exact h.trailingInput }

/-- A text has the error of an empty one just if it is blank. An error has a position, named once in its message, just
if the text is malformed; it lies within the text and is that of the character that is unexpected, of the end of the
run that is no number, or of the end of the token that is left over. -/
theorem evaluate_error_locatedIn (text : String) :
    ((∃ e, evaluate text = .error e ∧ e.fault = .empty) ↔ Blanks text.toList) ∧
      ∀ e, evaluate text = .error e → e.LocatedIn text.toList := by
  refine ⟨⟨?_, ?_⟩, ?_⟩
  · rintro ⟨e, he, hfault⟩
    obtain ⟨hblanks, -⟩ | hrefused | ⟨f, rfl⟩ := evaluate_eq_error he
    · exact hblanks
    · obtain ⟨-, k, hk⟩ := hrefused.exists_position
      rw [hfault] at hk
      cases hk
    · cases hfault
  · intro hblanks
    refine ⟨⟨.empty, none⟩, ?_, rfl⟩
    unfold evaluate
    rw [parse_of_blanks hblanks]
    rfl
  · intro e he
    obtain ⟨-, rfl⟩ | hrefused | ⟨f, rfl⟩ := evaluate_eq_error he
    · exact locatedIn_of_position_none rfl _
    · exact hrefused.locatedIn
    · exact locatedIn_of_position_none rfl _

theorem evaluate_error_locatedIn_two_points :
    evaluate "2+ 1.2.3" = .error ⟨.number "1.2.3", some 8⟩ ∧
      Error.LocatedIn ⟨.number "1.2.3", some 8⟩ "2+ 1.2.3".toList := by
  have herror : evaluate "2+ 1.2.3" = .error ⟨.number "1.2.3", some 8⟩ := by decide +kernel
  exact ⟨herror, (evaluate_error_locatedIn "2+ 1.2.3").2 _ herror⟩

/-- The run that is reported leaves out the digit of the name before it. -/
theorem evaluate_number_behind_name :
    evaluate "a1.2.3" = .error ⟨.number ".2.3", some 6⟩ ∧
      ¬∃ pre run post, "a1.2.3".toList = pre ++ run ++ post ∧ ".2.3" = String.ofList run ∧
        (pre ++ run).length = 6 ∧ (∀ c ∈ pre.getLast?, Numeral.isPart c = false) ∧
        ∀ c ∈ post.head?, Numeral.isPart c = false := by
  refine ⟨by decide +kernel, ?_⟩
  rintro ⟨pre, run, post, hsplit, hrun, hlength, hbefore, -⟩
  obtain rfl : ".2.3".toList = run := by rw [hrun, String.toList_ofList]
  have hpre : pre.length = 2 := by simpa using hlength
  obtain ⟨a, b, rfl⟩ := List.length_eq_two.mp hpre
  obtain ⟨rfl, rfl, -⟩ : 'a' = a ∧ '1' = b ∧ [] = post := by simpa using hsplit
  have hdigit : Numeral.isPart '1' = false := hbefore '1' rfl
  revert hdigit
  decide

end Culprits

section Lookahead

variable {cs : List Char} {before after : List Lexeme} {l next : Lexeme}

theorem stop_lt_stop (h : (lex cs).lexemes = before ++ l :: next :: after) : l.stop < next.stop := by
  have hlex : lexFrom 0 cs = ⟨before ++ l :: next :: after, (lex cs).ending⟩ := by rw [← h]; rfl
  obtain ⟨_, _, post, -, -, -, -, -, hpost⟩ := place_of_lexFrom hlex
  rw [← List.nil_append (next :: after)] at hpost
  obtain ⟨pre, run, _, -, -, hmunch, -, hstop, -⟩ := place_of_lexFrom hpost
  have hrun := List.length_pos_iff.mpr hmunch.1.ne_nil
  rw [hstop, List.length_append]
  omega

/-- The end of what was read once the token behind `l` was lies in `l` just if the text ends with `l`. -/
theorem lookahead_mem_iff (h : (lex cs).lexemes = before ++ l :: after) :
    l.start ≤ (after.head?.map Lexeme.stop).getD cs.length ∧ (after.head?.map Lexeme.stop).getD cs.length ≤ l.stop ↔
      l.stop = cs.length := by
  have hplace := (standsIn_of_mem (l := l) (by rw [h]; simp)).start_lt_stop
  cases after with
  | nil =>
    simp only [List.head?_nil, Option.map_none, Option.getD_none]
    omega
  | cons next after =>
    have hlt := stop_lt_stop h
    have hle := (standsIn_of_mem (l := next) (by rw [h]; simp)).start_lt_stop.2
    simp only [List.head?_cons, Option.map_some, Option.getD_some]
    omega

theorem Refused.unexpectedToken {t : Token} {position : Option Nat}
    (h : Refused (lex cs) ⟨.unexpectedToken t, position⟩) :
    ∃ before, OperandDue (before.map Lexeme.token) ∧
      ((t = .finish ∧ lex cs = ⟨before, .finish cs.length⟩ ∧ position = some cs.length) ∨
        ∃ l after, (lex cs).lexemes = before ++ l :: after ∧ l.token = t ∧
          t.beginsOperand ((after.map Lexeme.token).headD .finish) = false ∧
          position = some ((after.head?.map Lexeme.stop).getD cs.length)) := by
  cases h with
  | lexeme hending =>
    obtain ⟨pre, rest, -, -, hstops⟩ := stops_of_ending hending
    cases hstops
  | @token read w hdue hat hbegins =>
    refine ⟨read, hdue, ?_⟩
    cases hat with
    | finish hcurrent hrest hbehind =>
      have hlexemes : (lex cs).lexemes = read := by simpa [hrest] using hbehind.lexemes
      have hposition : w.position = cs.length := by simp [hbehind.position_eq, hrest]
      refine .inl ⟨hcurrent, ?_, congrArg some hposition⟩
      obtain ⟨m, hm⟩ := hbehind.endsWith.2 hrest
      have hlex : lex cs = ⟨read, .finish m⟩ := by rw [← hlexemes, ← hm]
      rw [hlex, finish_eq hlex, Nat.zero_add]
    | @token l hl hbehind =>
      refine .inr ⟨l, w.rest, by simpa using hbehind.lexemes, hl, ?_, congrArg some hbehind.position_eq⟩
      rwa [← w.peek_eq]

/-- Where a token is unexpected an operand is due: either the text ends there, or it goes on with a token with which
none begins. The position is not that of this token: it is the end of the token behind it, or of the text if there is
none, and so it lies in the token that is named only where the text ends with it. -/
theorem evaluate_unexpectedToken {text : String} {t : Token} {position : Option Nat}
    (h : evaluate text = .error ⟨.unexpectedToken t, position⟩) :
    ∃ before, OperandDue (before.map Lexeme.token) ∧
      ((t = .finish ∧ lex text.toList = ⟨before, .finish text.toList.length⟩ ∧ position = some text.toList.length) ∨
        ∃ l after, (lex text.toList).lexemes = before ++ l :: after ∧ l.token = t ∧ l.StandsIn text.toList ∧
          t.beginsOperand ((after.map Lexeme.token).headD .finish) = false ∧
          ∃ p, position = some p ∧ p = (after.head?.map Lexeme.stop).getD text.toList.length ∧
            (l.start ≤ p ∧ p ≤ l.stop ↔ l.stop = text.toList.length)) := by
  obtain ⟨-, hempty⟩ | hrefused | ⟨f, hvalue⟩ := evaluate_eq_error h
  · cases hempty
  · obtain ⟨before, hdue, hfinish | ⟨l, after, hlexemes, hl, hbegins, hposition⟩⟩ := hrefused.unexpectedToken
    · exact ⟨before, hdue, .inl hfinish⟩
    · have hstands : l.StandsIn text.toList := standsIn_of_mem (by rw [hlexemes]; simp)
      exact ⟨before, hdue,
        .inr ⟨l, after, hlexemes, hl, hstands, hbegins, _, hposition, rfl, lookahead_mem_iff hlexemes⟩⟩
  · cases hvalue

theorem evaluate_unexpectedToken_behind_plus :
    evaluate "2+ * 3-1" = .error ⟨.unexpectedToken .times, some 6⟩ ∧
      ∃ before l after, OperandDue (before.map Lexeme.token) ∧
        (lex "2+ * 3-1".toList).lexemes = before ++ l :: after ∧ l.token = .times ∧
        (l.start ≤ 6 ∧ 6 ≤ l.stop ↔ l.stop = 8) := by
  have herror : evaluate "2+ * 3-1" = .error ⟨.unexpectedToken .times, some 6⟩ := by decide +kernel
  obtain ⟨before, hdue, ⟨⟨⟩, -⟩ | ⟨l, after, hlexemes, hl, -, -, p, ⟨⟩, -, hmem⟩⟩ := evaluate_unexpectedToken herror
  exact ⟨herror, before, l, after, hdue, hlexemes, hl, hmem⟩

/-- The number behind the token is read before the token is found to be unexpected. -/
theorem evaluate_times_before_number :
    evaluate "*1" = .error ⟨.unexpectedToken .times, some 2⟩ ∧ (∃ l ∈ (lex "*1".toList).lexemes, l.token = .times) ∧
      ∀ l ∈ (lex "*1".toList).lexemes, l.token = .times → ¬(l.start ≤ 2 ∧ 2 ≤ l.stop) := by
  decide +kernel

end Lookahead

end Tabletop.Arithmetic

import Tabletop.Proofs.Activations
import Tabletop.Proofs.Agreement

/-!
What the machine reads. From every state in which a phrase is to be read, on whatever stack, the machine comes to the
point where the phrase is handed back to that stack, with the counter as it was. A loop reads the terms, or the whole
expression, that its floor lets it read. Main statements: from every state that is reached, each open call returns;
started on a text, the machine stops with what the reader makes of the text.
-/

namespace Tabletop.Arithmetic

/-- What can be in hand behind the token that is in hand. -/
abbrev Window.Next (w : Window) : Type := { w' : Window // w'.size ≤ w.size - 1 }

/-- An operator and what it was read with are used up. -/
theorem Window.size_lt_of_operator {w : Window} {op : BinaryOp} (hop : binaryOp? w.peek = some op) (w₁ : w.Next)
    (w₂ : w₁.val.Next) (r : Parsed w₂.val.size) : r.window.size < w.size := by
  have hne : w.size ≠ 0 := by
    apply size_ne_zero_of_peek rfl
    intro hfinish
    rw [hfinish] at hop
    cases hop
  have := w₁.property; have := w₂.property; have := r.size_le
  omega

/-- The expression that was read, if the text ends behind it. -/
def Window.finished (w : Window) (e : Expr) : Except Error Expr :=
  match w.rest with
  | [] => .ok e
  | ahead :: _ => .error (w.fail (.trailingInput ahead.token))

namespace Machine

section Runs

variable {m m' : Machine} {w : Window} {depth depth' depth'' : Nat} {stack stack' stack'' : List Frame}
  {bound bound' : Nat}

/-- From `m` the machine comes to where the outcome is handed back to the stack. -/
def Delivers (m : Machine) (depth : Nat) (stack : List Frame) {bound : Nat} (outcome : Except Error (Parsed bound)) :
    Prop :=
  ∃ w, Run m ⟨w, depth, stack, .returning (outcome.map Parsed.tree)⟩ ∧ ∀ r, outcome = .ok r → r.window = w

theorem Delivers.of_run {outcome : Except Error (Parsed bound)} (h : Run m m')
    (hm : Delivers m' depth stack outcome) : Delivers m depth stack outcome := by
  obtain ⟨w, hrun, hw⟩ := hm
  exact ⟨w, h.trans hrun, hw⟩

theorem Delivers.of_step {outcome : Except Error (Parsed bound)} (h : m.step = some m')
    (hm : Delivers m' depth stack outcome) : Delivers m depth stack outcome := hm.of_run (.single h)

theorem delivers_ok {e : Expr} {hle : w.size ≤ bound} :
    Delivers ⟨w, depth, stack, .returning (.ok e)⟩ depth stack (.ok (⟨e, w, hle⟩ : Parsed bound)) :=
  ⟨w, .refl, fun _ h => by cases h; rfl⟩

theorem delivers_error {e : Error} :
    Delivers ⟨w, depth, stack, .returning (.error e)⟩ depth stack (.error e : Except Error (Parsed bound)) :=
  ⟨w, .refl, nofun⟩

/-- An error that is handed to one stack is handed on to another one. -/
def Unwinds (depth : Nat) (stack : List Frame) (depth' : Nat) (stack' : List Frame) : Prop :=
  ∀ w e, Run ⟨w, depth, stack, .returning (.error e)⟩ ⟨w, depth', stack', .returning (.error e)⟩

theorem Unwinds.refl : Unwinds depth stack depth stack := fun _ _ => .refl

theorem Unwinds.trans (h : Unwinds depth stack depth' stack') (h' : Unwinds depth' stack' depth'' stack'') :
    Unwinds depth stack depth'' stack'' := fun w e => (h w e).trans (h' w e)

theorem unwinds_loop {floor : Precedence} : Unwinds depth (.loop floor :: stack) depth stack := fun _ _ => .single rfl

theorem unwinds_operand {op : BinaryOp} {left : Expr} :
    Unwinds depth (.operand op left :: stack) depth stack := fun _ _ => .single rfl

theorem unwinds_body {task : Task} : Unwinds depth (.body task :: stack) depth stack := fun _ _ => .single rfl

theorem Unwinds.delivers (h : Unwinds depth stack depth' stack') (w : Window) (e : Error) :
    Delivers ⟨w, depth, stack, .returning (.error e)⟩ depth' stack' (.error e : Except Error (Parsed bound)) :=
  delivers_error.of_run (h w e)

/-- What comes of a phrase and of what is made of it. -/
theorem Delivers.bind {x : Except Error (Parsed bound)} {f : Parsed bound → Except Error (Parsed bound')}
    (h : Delivers m depth stack x) (hfail : Unwinds depth stack depth' stack')
    (hf : ∀ r, x = .ok r → Delivers ⟨r.window, depth, stack, .returning (.ok r.tree)⟩ depth' stack' (f r)) :
    Delivers m depth' stack' (x >>= f) := by
  obtain ⟨w, hrun, hw⟩ := h
  cases x with
  | error e => exact (hfail.delivers w e).of_run hrun
  | ok r =>
    have hwindow := hw r rfl
    subst hwindow
    exact (hf r rfl).of_run hrun

theorem delivers_advancing {next : Machine → Machine}
    {f : w.Next → Except Error (Parsed bound)} {control : Control}
    (hfail : Unwinds depth stack depth' stack')
    (htook : ∀ w', w.advance = .ok w' → Delivers (next ⟨w', depth, stack, control⟩) depth' stack' (f w')) :
    Delivers ((⟨w, depth, stack, control⟩ : Machine).advancing next) depth' stack' (w.advance >>= f) := by
  unfold advancing
  cases hadv : w.advance with
  | error e => exact hfail.delivers w e
  | ok w' => exact htook w' hadv

end Runs

section Loops

variable {factor : Phrase} {depth : Nat}

/-- A loop with that floor reads the phrase. -/
def Loops (depth : Nat) (floor : Precedence) (phrase : Phrase) : Prop :=
  ∀ w stack, Delivers ⟨w, depth, .loop floor :: stack, .reading⟩ depth stack (phrase w)

theorem step_loop_of_not (w : Window) (depth : Nat) {floor : Precedence} (stack : List Frame) (left : Expr)
    (h : ¬floor.rank < (Precedence.ofToken w.peek).rank) :
    (⟨w, depth, .loop floor :: stack, .returning (.ok left)⟩ : Machine).step =
      some ⟨w, depth, stack, .returning (.ok left)⟩ := by
  simp only [step, resume, resumeLoop, h, and_false, if_false, give]

theorem rank_ofToken_le (t : Token) : (Precedence.ofToken t).rank ≤ 3 := by
  cases t <;> simp [Precedence.ofToken, Precedence.rank]

/-- Above all operators a loop reads a factor. -/
theorem loops_factor {floor : Precedence}
    (hfactor : ∀ w stack, Delivers ⟨w, depth, stack, .reading⟩ depth stack (factor w)) (hfloor : 3 ≤ floor.rank) :
    Loops depth floor factor := by
  intro w stack
  obtain ⟨w', hrun, hw'⟩ := hfactor w (.loop floor :: stack)
  refine ⟨w', hrun.tail ?_, hw'⟩
  cases factor w with
  | error e => rfl
  | ok r =>
    apply step_loop_of_not
    have := rank_ofToken_le w'.peek
    omega

/-- A loop goes on with an operator that binds more tightly than its floor. -/
theorem delivers_operator {floor : Precedence} {w : Window} {stack : List Frame} {left : Expr} {op : BinaryOp}
    {operand : Phrase} {bound : Nat}
    {f : (w₁ : w.Next) → (w₂ : w₁.val.Next) → Parsed w₂.val.size → Except Error (Parsed bound)}
    (hop : binaryOp? w.peek = some op) (hfloor : floor.rank < op.precedence.rank)
    (hoperand : Loops depth op.precedence operand)
    (hf : ∀ (w₁ : w.Next) (w₂ : w₁.val.Next) r, operand w₂ = .ok r →
      Delivers ⟨r.window, depth, .loop floor :: stack, .returning (.ok (.binary op left r.tree))⟩ depth stack
        (f w₁ w₂ r)) :
    Delivers ⟨w, depth, .loop floor :: stack, .returning (.ok left)⟩ depth stack
      (w.advance >>= fun w₁ => w₁.val.advance >>= fun w₂ => operand w₂ >>= f w₁ w₂) := by
  have hstep : (⟨w, depth, .loop floor :: stack, .returning (.ok left)⟩ : Machine).step =
      some ((⟨w, depth, .loop floor :: stack, .returning (.ok left)⟩ : Machine).advancing (beginOperand left)) := by
    have hahead : w.peek ≠ .finish ∧ floor.rank < (Precedence.ofToken w.peek).rank := by
      rw [← precedence_of_binaryOp? hop]
      refine ⟨fun hfinish => ?_, hfloor⟩
      rw [hfinish] at hop
      cases hop
    simp only [step, resume, resumeLoop, if_pos hahead]
  refine .of_step hstep (delivers_advancing unwinds_loop fun w₁ hadv => ?_)
  rw [← Window.current_of_advance hadv] at hop
  simp only [beginOperand, hop]
  refine delivers_advancing unwinds_loop fun w₂ _ => ?_
  apply (hoperand w₂ (.operand op left :: .loop floor :: stack)).bind (unwinds_operand.trans unwinds_loop)
  intro r hr
  exact .of_step rfl (hf w₁ w₂ r hr)

theorem binaryOp?_of_productOp? {t : Token} {op : BinaryOp} (h : productOp? t = some op) :
    binaryOp? t = some op ∧ op.precedence = .product := by
  cases t <;> cases h <;> exact ⟨rfl, rfl⟩

theorem binaryOp?_of_sumOp? {t : Token} {op : BinaryOp} (h : sumOp? t = some op) :
    binaryOp? t = some op ∧ op.precedence = .sum := by
  cases t <;> cases h <;> exact ⟨rfl, rfl⟩

theorem rank_ofToken_le_of_productOp? {t : Token} (h : productOp? t = none) :
    (Precedence.ofToken t).rank ≤ 2 := by
  cases t <;> simp_all [Precedence.ofToken, Precedence.rank, productOp?]

theorem rank_ofToken_le_of_sumOp? {t : Token} (h : productOp? t = none) (h' : sumOp? t = none) :
    (Precedence.ofToken t).rank ≤ 1 := by
  cases t <;> simp_all [Precedence.ofToken, Precedence.rank, productOp?, sumOp?]

/-- No operator is ahead when a term was read. -/
theorem productOp?_peek_of_chainFrom {operand : Phrase} {bound : Nat} {left : Expr} {w : Window}
    {size_le : w.size ≤ bound} {r : Parsed bound}
    (h : chainFrom productOp? operand bound left w size_le = .ok r) : productOp? r.window.peek = none := by
  induction hn : w.size using Nat.strong_induction_on generalizing w left with
  | _ n ih =>
    cases hop : productOp? w.peek with
    | none =>
      rw [chainFrom_of_none hop] at h
      cases h
      exact hop
    | some op =>
      rw [chainFrom_of_some hop rfl] at h
      obtain ⟨w₁, -, h⟩ := exists_of_bind_eq_ok h
      obtain ⟨w₂, -, h⟩ := exists_of_bind_eq_ok h
      obtain ⟨right, -, h⟩ := exists_of_bind_eq_ok h
      have hlt := Window.size_lt_of_operator (binaryOp?_of_productOp? hop).1 w₁ w₂ right
      exact ih _ (hn ▸ hlt) h rfl

theorem productOp?_peek_of_term {w : Window} {r : Parsed w.size} (h : term factor w = .ok r) :
    productOp? r.window.peek = none := by
  obtain ⟨first, -, h⟩ := exists_of_bind_eq_ok h
  exact productOp?_peek_of_chainFrom h

section Reading

variable (hfactor : ∀ w stack, Delivers ⟨w, depth, stack, .reading⟩ depth stack (factor w))
  {w : Window} {stack : List Frame} {left : Expr} {bound : Nat} {size_le : w.size ≤ bound}

include hfactor

/-- A loop above the additive operators reads on through the factors of a term. -/
theorem delivers_factors :
    Delivers ⟨w, depth, .loop .sum :: stack, .returning (.ok left)⟩ depth stack
      (chainFrom productOp? factor bound left w size_le) := by
  induction hn : w.size using Nat.strong_induction_on generalizing w left with
  | _ n ih =>
    cases hop : productOp? w.peek with
    | none =>
      rw [chainFrom_of_none hop]
      have hrank := rank_ofToken_le_of_productOp? hop
      exact .of_step (step_loop_of_not w depth stack left (Nat.not_lt.mpr hrank)) delivers_ok
    | some op =>
      obtain ⟨hbinary, hprecedence⟩ := binaryOp?_of_productOp? hop
      have hloops : Loops depth op.precedence factor := loops_factor hfactor (by rw [hprecedence]; decide)
      rw [chainFrom_of_some hop rfl]
      refine delivers_operator hbinary (by rw [hprecedence]; decide) hloops fun w₁ w₂ r _ => ?_
      exact ih _ (hn ▸ Window.size_lt_of_operator hbinary w₁ w₂ r) rfl

theorem loops_term : Loops depth .sum (term factor) := by
  intro w stack
  apply (hfactor w (.loop .sum :: stack)).bind unwinds_loop
  intro r _
  exact delivers_factors hfactor

/-- A loop above nothing reads on through the factors of a term, and then through the terms. -/
theorem delivers_terms :
    Delivers ⟨w, depth, .loop .lowest :: stack, .returning (.ok left)⟩ depth stack
      (chainFrom productOp? factor bound left w size_le >>= fun first =>
        chainFrom sumOp? (term factor) bound first.tree first.window first.size_le) := by
  induction hn : w.size using Nat.strong_induction_on generalizing w left with
  | _ n ih =>
    cases hop : productOp? w.peek with
    | some op =>
      obtain ⟨hbinary, hprecedence⟩ := binaryOp?_of_productOp? hop
      have hloops : Loops depth op.precedence factor := loops_factor hfactor (by rw [hprecedence]; decide)
      rw [chainFrom_of_some hop rfl]
      simp only [bind_assoc]
      refine delivers_operator hbinary (by rw [hprecedence]; decide) hloops fun w₁ w₂ r _ => ?_
      exact ih _ (hn ▸ Window.size_lt_of_operator hbinary w₁ w₂ r) rfl
    | none =>
      rw [chainFrom_of_none hop]
      change Delivers _ depth stack (chainFrom sumOp? (term factor) bound left w size_le)
      cases hop' : sumOp? w.peek with
      | none =>
        rw [chainFrom_of_none hop']
        have hrank := rank_ofToken_le_of_sumOp? hop hop'
        exact .of_step (step_loop_of_not w depth stack left (Nat.not_lt.mpr hrank)) delivers_ok
      | some op =>
        obtain ⟨hbinary, hprecedence⟩ := binaryOp?_of_sumOp? hop'
        have hloops : Loops depth op.precedence (term factor) := hprecedence ▸ loops_term hfactor
        rw [chainFrom_of_some hop' rfl]
        refine delivers_operator hbinary (by rw [hprecedence]; decide) hloops fun w₁ w₂ r hr => ?_
        have hrest := @ih _ (hn ▸ Window.size_lt_of_operator hbinary w₁ w₂ r) r.window (.binary op left r.tree)
          (r.size_le.trans (Window.size_le_of_advance (Window.size_le_of_advance size_le w₁) w₂)) rfl
        rw [chainFrom_of_none (productOp?_peek_of_term hr)] at hrest
        exact hrest

theorem loops_expression : Loops depth .lowest (expression factor) := by
  intro w stack
  simp only [expression, chain, term, bind_assoc]
  apply (hfactor w (.loop .lowest :: stack)).bind unwinds_loop
  intro r _
  exact delivers_terms hfactor

end Reading

end Loops

section Nested

variable {w : Window} {depth bound : Nat} {stack : List Frame} {control : Control} {argument : Phrase}

/-- The guard of a nested call sets the counter back, whatever is handed on. -/
theorem Delivers.leave {m : Machine} {outcome : Except Error (Parsed bound)}
    (h : Delivers m (depth + 1) (.nested :: stack) outcome) : Delivers m depth stack outcome := by
  obtain ⟨w, hrun, hw⟩ := h
  refine ⟨w, hrun.tail ?_, hw⟩
  cases outcome <;> rfl

theorem delivers_close (e : Expr) (hle : ∀ w₁ : w.Next, w₁.val.size ≤ bound) :
    Delivers ((⟨w, depth, stack, control⟩ : Machine).close e) depth stack
      (w.close >>= fun w₁ => .ok (⟨e, w₁, hle w₁⟩ : Parsed bound)) := by
  unfold close
  cases w.close with
  | error e => exact delivers_error
  | ok w₁ => exact delivers_ok

theorem delivers_perform {task : Task} {phrase : Phrase}
    {f : (w₁ : w.Next) → Parsed w₁.val.size → Except Error (Parsed bound)}
    (hphrase : Loops depth task.floor phrase)
    (hf : ∀ (w₁ : w.Next) (r : Parsed w₁.val.size),
      Delivers ((⟨r.window, depth, stack, .returning (.ok r.tree)⟩ : Machine).resumeTask task r.tree) depth stack
        (f w₁ r)) :
    Delivers (perform task ⟨w, depth, stack, control⟩) depth stack
      (w.advance >>= fun w₁ => phrase w₁ >>= f w₁) := by
  refine delivers_advancing .refl fun w₁ _ => ?_
  apply (hphrase w₁ (.body task :: stack)).bind unwinds_body
  intro r _
  exact .of_step rfl (hf w₁ r)

theorem delivers_arguments (hargument : Loops depth .lowest argument) {name : String} {args : List Expr}
    {size_le : w.size ≤ bound} :
    Delivers (perform (.arguments name args) ⟨w, depth, stack, control⟩) depth stack
      (arguments argument name bound args w size_le) := by
  induction hn : w.size using Nat.strong_induction_on generalizing w args control with
  | _ n ih =>
    rw [arguments_eq]
    refine delivers_perform hargument fun w₁ r => ?_
    by_cases hcomma : r.window.peek = .comma
    · simp only [resumeTask, if_pos hcomma]
      refine delivers_advancing .refl fun w₂ _ => ih _ ?_ rfl
      have hne := Window.size_ne_zero_of_peek hcomma (by simp)
      have := w₁.property; have := w₂.property; have := r.size_le
      omega
    · simp only [resumeTask, if_neg hcomma]
      exact delivers_close _ _

theorem delivers_call (hargument : Loops depth .lowest argument) (name : String) :
    Delivers (beginCall name ⟨w, depth, stack, control⟩) depth stack (call argument name w) := by
  unfold beginCall call
  by_cases hopen : w.peek = .leftParen
  · rw [if_pos hopen, if_pos hopen]
    refine delivers_advancing .refl fun w₁ _ => ?_
    by_cases hclose : w₁.val.peek = .rightParen
    · rw [if_pos hclose, if_pos hclose]
      exact delivers_advancing .refl fun w₂ _ => delivers_ok
    · rw [if_neg hclose, if_neg hclose]
      exact delivers_arguments hargument
  · rw [if_neg hopen, if_neg hopen]
    exact delivers_error

theorem delivers_nest {begin : Machine → Machine} {outcome : Except Error (Parsed bound)}
    (hdepth : depth < maxNesting)
    (h : Delivers (begin ⟨w, depth + 1, .nested :: stack, control⟩) (depth + 1) (.nested :: stack) outcome) :
    Delivers ((⟨w, depth, stack, control⟩ : Machine).nest begin) depth stack outcome := by
  rw [nest, if_pos hdepth]
  exact h.leave

/-- As many nested calls as may still be opened are as many levels of the reader. -/
theorem delivers_factor (levels : Nat) (hlevels : depth + levels = maxNesting) (w : Window) (stack : List Frame) :
    Delivers ⟨w, depth, stack, .reading⟩ depth stack (factor levels w) := by
  refine .of_step rfl ?_
  induction levels generalizing depth w stack with
  | zero =>
    have hdepth : ¬depth < maxNesting := by omega
    cases hc : w.current with
    | number n =>
      simp only [factor_zero, factorWithin, readFactor, hc]
      exact delivers_ok
    | _ =>
      simp only [factor_zero, factorWithin, readFactor, hc, nest, if_neg hdepth]
      exact delivers_error
  | succ levels ih =>
    have hdepth : depth < maxNesting := by omega
    have hinner : ∀ w stack, Delivers ⟨w, depth + 1, stack, .reading⟩ (depth + 1) stack (factor levels w) :=
      fun w stack => .of_step rfl (ih (by omega) w stack)
    cases hc : w.current with
    | number n =>
      simp only [factor_succ, factorWithin, readFactor, hc]
      exact delivers_ok
    | minus =>
      simp only [factor_succ, factorWithin, readFactor, hc]
      apply delivers_nest hdepth
      exact delivers_perform (loops_factor hinner (by decide)) fun w₁ r => delivers_ok
    | plus =>
      simp only [factor_succ, factorWithin, readFactor, hc]
      apply delivers_nest hdepth
      exact delivers_perform (loops_factor hinner (by decide)) fun w₁ r => delivers_ok
    | leftParen =>
      simp only [factor_succ, factorWithin, readFactor, hc]
      apply delivers_nest hdepth
      exact delivers_perform (loops_expression hinner) fun w₁ r => delivers_close _ _
    | ident name =>
      simp only [factor_succ, factorWithin, readFactor, hc]
      exact delivers_nest hdepth (delivers_call (loops_expression hinner) name)
    | _ =>
      simp only [factor_succ, factorWithin, readFactor, hc]
      exact delivers_error

end Nested

section Returning

variable {m m' : Machine} {w : Window} {depth : Nat} {floor : Precedence} {stack : List Frame}

/-- The machine comes to where something is handed back to the stack. -/
def Returns (m : Machine) (stack : List Frame) : Prop :=
  ∃ w depth outcome, Run m ⟨w, depth, stack, .returning outcome⟩

theorem Delivers.returns {bound : Nat} {outcome : Except Error (Parsed bound)} (h : Delivers m depth stack outcome) :
    Returns m stack := by
  obtain ⟨w, hrun, -⟩ := h
  exact ⟨w, depth, _, hrun⟩

theorem Returns.of_run (h : Run m m') (hm : Returns m' stack) : Returns m stack := by
  obtain ⟨w, depth, outcome, hrun⟩ := hm
  exact ⟨w, depth, outcome, h.trans hrun⟩

theorem Returns.of_step (h : m.step = some m') (hm : Returns m' stack) : Returns m stack := hm.of_run (.single h)

theorem returns_refl {outcome : Except Error Expr} : Returns ⟨w, depth, stack, .returning outcome⟩ stack :=
  ⟨w, depth, outcome, .refl⟩

/-- A loop ends, however its left side was read. -/
theorem returns_loop (h : Stacked depth floor (.loop floor :: stack)) (w : Window) (outcome : Except Error Expr) :
    Returns ⟨w, depth, .loop floor :: stack, .returning outcome⟩ stack := by
  have hfactor := delivers_factor (maxNesting - depth) (Nat.add_sub_cancel' h.depth_le)
  cases outcome with
  | error e => exact .of_step rfl returns_refl
  | ok left =>
    have hrank := rank_ofToken_le w.peek
    cases floor with
    | lowest => exact (@delivers_terms _ _ hfactor w stack left _ le_rfl).returns
    | sum => exact (@delivers_factors _ _ hfactor w stack left _ le_rfl).returns
    | product => exact .of_step (step_loop_of_not w depth stack left (Nat.not_lt.mpr hrank)) returns_refl
    | sign =>
      exact .of_step (step_loop_of_not w depth stack left (Nat.not_lt.mpr (Nat.le_succ_of_le hrank))) returns_refl

theorem returns_close (e : Expr) (control : Control) :
    Returns ((⟨w, depth, stack, control⟩ : Machine).close e) stack := by
  unfold close
  split <;> exact returns_refl

theorem returns_resumeTask (hdepth : depth ≤ maxNesting) (task : Task) (e : Expr) (control : Control) :
    Returns ((⟨w, depth, stack, control⟩ : Machine).resumeTask task e) stack := by
  unfold resumeTask
  split
  · exact returns_refl
  · exact returns_refl
  · exact returns_close e control
  · next name args =>
    have hfactor := delivers_factor (maxNesting - depth) (Nat.add_sub_cancel' hdepth)
    split
    · apply advancing_induction (P := fun m => Returns m stack) _ fun _ => returns_refl
      intro w₁ _
      exact (@delivers_arguments _ _ _ _ control _ (loops_expression hfactor) name (e :: args) le_rfl).returns
    · exact returns_close _ control

/-- A call that something is handed to returns. -/
theorem Valid.returns_tail {frame : Frame} {outcome : Except Error Expr}
    (h : Valid ⟨w, depth, frame :: stack, .returning outcome⟩) :
    Returns ⟨w, depth, frame :: stack, .returning outcome⟩ stack := by
  cases h with
  | @loop _ _ floor _ _ h =>
    obtain ⟨rest, hstack⟩ := h.exists_loop
    obtain ⟨rfl, rfl⟩ := List.cons.inj hstack
    exact returns_loop h w outcome
  | operand _ => cases outcome <;> exact .of_step rfl returns_refl
  | nested _ _ => exact .of_step rfl returns_refl
  | body _ hdepth =>
    cases outcome with
    | error e => exact .of_step rfl returns_refl
    | ok e => exact .of_step rfl (returns_resumeTask hdepth _ e _)

/-- The open calls return one after the other, the innermost one first. -/
theorem Valid.returns {rest : List Frame} {outcome : Except Error Expr}
    (h : Valid ⟨w, depth, stack, .returning outcome⟩) (hrest : rest <:+ stack) :
    Returns ⟨w, depth, stack, .returning outcome⟩ rest := by
  induction stack generalizing w depth outcome with
  | nil =>
    rw [List.suffix_nil.mp hrest]
    exact returns_refl
  | cons frame stack ih =>
    rcases List.suffix_cons_iff.mp hrest with rfl | hrest
    · exact returns_refl
    · obtain ⟨w₁, depth₁, outcome₁, hrun⟩ := h.returns_tail
      obtain ⟨w₂, depth₂, outcome₂, hrun'⟩ := ih (h.of_run hrun) hrest
      exact ⟨w₂, depth₂, outcome₂, hrun.trans hrun'⟩

/-- Every open call returns, and the counter is then how many of the others are nested. -/
theorem Valid.returns_suffix {rest : List Frame} (h : Valid m) (hrest : rest <:+ m.stack) :
    ∃ w outcome, Run m ⟨w, openNested rest, rest, .returning outcome⟩ := by
  suffices hreturns : Returns m rest by
    obtain ⟨w, depth, outcome, hrun⟩ := hreturns
    obtain rfl : openNested rest = depth := (h.of_run hrun).openNested_eq
    exact ⟨w, outcome, hrun⟩
  obtain ⟨w, depth, stack, control⟩ := m
  cases control with
  | returning outcome => exact h.returns hrest
  | reading =>
    obtain ⟨w', hrun, -⟩ := delivers_factor (maxNesting - depth) (Nat.add_sub_cancel' h.depth_le) w stack
    exact (h.of_run hrun).returns hrest |>.of_run hrun

end Returning

section Ending

variable {m a b : Machine} {w : Window}

/-- The machine has one way to go. -/
theorem Run.eq_of_halted (ha : Run m a) (hb : Run m b) (ha' : a.step = none) (hb' : b.step = none) : a = b := by
  have hunique : Relator.RightUnique fun m m' : Machine => m.step = some m' := fun m a b ha hb =>
    Option.some.inj (ha.symm.trans hb)
  have hhalted {m m' : Machine} (h : Run m m') (hm : m.step = none) : m = m' := by
    cases Relation.ReflTransGen.cases_head h with
    | inl h => exact h
    | inr h =>
      obtain ⟨next, hstep, -⟩ := h
      rw [hm] at hstep
      cases hstep
  rcases Relation.ReflTransGen.total_of_right_unique hunique ha hb with h | h
  · exact hhalted h ha'
  · exact (hhalted h hb').symm

theorem delivers_start (w : Window) : Delivers (start w) 0 [] (expression (factor maxNesting) w) :=
  loops_expression (delivers_factor maxNesting (Nat.zero_add _)) w []

/-- What the machine ends with is what the reader makes of the text, if nothing of it is left. -/
theorem parseLexed_of_run {text : Lexed} {w' : Window} {outcome : Except Error Expr}
    (hstart : Window.start text = .ok w) (h : Run (start w) ⟨w', 0, [], .returning outcome⟩) :
    parseLexed text = outcome >>= w'.finished := by
  obtain ⟨w₁, hrun, hw₁⟩ := delivers_start w
  have hend := hrun.eq_of_halted h rfl rfl
  simp only [Machine.mk.injEq, Control.returning.injEq, true_and] at hend
  obtain ⟨rfl, rfl⟩ := hend
  unfold parseLexed
  rw [hstart]
  change (expression (factor maxNesting) w >>= fun whole => whole.window.finished whole.tree) = _
  cases hread : expression (factor maxNesting) w with
  | error e => rfl
  | ok whole =>
    rw [← hw₁ whole hread]
    rfl

end Ending

end Machine

end Tabletop.Arithmetic

import Tabletop.Proofs.Lines
import Tabletop.Proofs.Messages

/-!
Replies without their markup. Markup is put around what was rolled and totalled, and decides about neither: queries are
answered without it. Where emphasis only puts characters around a text, those can be taken out of a reply again. Main
statement: whatever the markup, the same dice are rolled, the same texts evaluated and the same totals shown, and with
its characters erased a reply that does not fold is the one without markup.
-/

namespace Tabletop

namespace Text

/-- A text without the characters of another. -/
def erase (marks text : String) : String := String.ofList (text.toList.filter (· ∉ marks.toList))

section Erasing

variable {marks text : String}

theorem erase_append (front back : String) : erase marks (front ++ back) = erase marks front ++ erase marks back := by
  rw [erase, String.toList_append, List.filter_append, String.ofList_append]
  rfl

theorem erase_intercalate (sep : String) (texts : List String) :
    erase marks (sep.intercalate texts) = (erase marks sep).intercalate (texts.map (erase marks)) := by
  induction texts with
  | nil => rfl
  | cons text texts ih =>
    cases texts with
    | nil => simp
    | cons next texts =>
      rw [String.intercalate_cons_cons, erase_append, erase_append, ih]
      simp [String.intercalate_cons_cons]

/-- What is left of texts in a row is decided by what is left of each. -/
theorem erase_intercalate_congr {α : Type} {f g : α → String} {xs : List α} (sep : String)
    (h : ∀ x ∈ xs, erase marks (f x) = erase marks (g x)) :
    erase marks (sep.intercalate (xs.map f)) = erase marks (sep.intercalate (xs.map g)) := by
  rw [erase_intercalate, erase_intercalate, List.map_map, List.map_map]
  exact congrArg _ (List.map_congr_left h)

theorem erase_eq_self (h : ∀ c ∈ marks.toList, c ∉ text.toList) : erase marks text = text := by
  have hkept : ∀ c ∈ text.toList, decide (c ∉ marks.toList) = true := fun c hc => by
    rw [decide_eq_true_eq]
    exact fun hmark => h c hmark hc
  rw [erase, List.filter_eq_self.mpr hkept, String.ofList_toList]

theorem erase_eq_empty (h : ∀ c ∈ text.toList, c ∈ marks.toList) : erase marks text = "" := by
  have hnone : text.toList.filter (· ∉ marks.toList) = [] := by simpa [List.filter_eq_nil_iff] using h
  rw [erase, hnone, String.ofList_nil]

/-- What is put around a text is erased from it. -/
theorem erase_between (opening closing text : String) :
    erase (opening ++ closing) (opening ++ text ++ closing) = erase (opening ++ closing) text := by
  have hopening : erase (opening ++ closing) opening = "" := erase_eq_empty (by simp +contextual)
  have hclosing : erase (opening ++ closing) closing = "" := erase_eq_empty (by simp +contextual)
  rw [erase_append, erase_append, hopening, hclosing, String.empty_append, String.append_empty]

end Erasing

end Text

open Text Arithmetic

section Emphasis

variable {marks : String} {markup : Markup}

/-- Without the characters of its markup, a line is the one without markup. -/
theorem Roll.erase_line (h : ∀ text, erase marks (markup.emphasize text) = erase marks text) (r : Roll) :
    erase marks (r.line markup) = erase marks (r.line .plain) := by
  have hface : ∀ face, erase marks (faceText markup r.mode face) = erase marks (faceText .plain r.mode face) := by
    intro face
    unfold faceText
    split
    · rfl
    · split
      · exact h _
      · rfl
  simp only [line, erase_append, erase_intercalate_congr " " fun face _ => hface face]

namespace Result

variable {α : Type} {f g : α → String}

/-- What is left of the single line of a result is decided by what is left of its lines. -/
theorem erase_lineBody (h : ∀ a, erase marks (f a) = erase marks (g a)) (r : Result α) :
    erase marks (r.map f).lineBody = erase marks (r.map g).lineBody := by
  induction r with
  | leaf input total entries => exact erase_intercalate_congr " | " fun entry _ => h entry
  | repeated input total entries parts ih =>
    rw [map_repeated, map_repeated, lineBody, lineBody, quotedBodies_eq, quotedBodies_eq, List.map_map, List.map_map]
    refine erase_intercalate_congr " | " fun part hpart => ?_
    simp only [Function.comp_apply, erase_append, ih part hpart]

section Blocks

variable (hmarkup : ∀ text, erase marks (markup.emphasize text) = erase marks text)
  (h : ∀ a, erase marks (f a) = erase marks (g a))

include hmarkup in
theorem erase_header (level : Nat) (input : String) :
    erase marks (header markup level input) = erase marks (header .plain level input) := by
  rw [header, header, erase_append, erase_append, hmarkup, erase_append, erase_append]
  rfl

theorem erase_blocks {level : Nat} {parts : List (Result α)}
    (hparts : ∀ part ∈ parts,
      erase marks (block markup level (part.map f)) = erase marks (block .plain level (part.map g))) :
    erase marks ("\n".intercalate (blocks markup level (parts.map (map f)))) =
      erase marks ("\n".intercalate (blocks .plain level (parts.map (map g)))) := by
  rw [blocks_eq, blocks_eq, List.map_map, List.map_map]
  exact erase_intercalate_congr "\n" hparts

include hmarkup h

theorem erase_block (r : Result α) (level : Nat) :
    erase marks (block markup level (r.map f)) = erase marks (block .plain level (r.map g)) := by
  induction r generalizing level with
  | leaf input total entries =>
    have hitems : erase marks ("\n".intercalate ((entries.map f).map (item level))) =
        erase marks ("\n".intercalate ((entries.map g).map (item level))) := by
      rw [List.map_map, List.map_map]
      refine erase_intercalate_congr "\n" fun entry _ => ?_
      simp only [Function.comp_apply, item, erase_append, h]
    rw [map_leaf, map_leaf, block, block]
    simp only [erase_append, erase_header hmarkup, hitems]
  | repeated input total entries parts ih =>
    have hblocks := erase_blocks fun part hpart => ih part hpart (level + 1)
    rw [map_repeated, map_repeated, block, block]
    simp only [erase_append, erase_header hmarkup, hblocks]

theorem erase_blockBody (r : Result α) :
    erase marks ((r.map f).blockBody markup) = erase marks ((r.map g).blockBody .plain) := by
  cases r with
  | leaf input total entries => exact erase_intercalate_congr "\n" fun entry _ => h entry
  | repeated input total entries parts =>
    rw [map_repeated, map_repeated]
    exact erase_blocks fun part _ => erase_block hmarkup h part 0

/-- What is left of a reply is decided by what is left of its lines. -/
theorem erase_reply {layout : Layout} (hlayout : layout ≠ .collapsible) (r : Result α) :
    erase marks ((r.map f).reply markup layout) = erase marks ((r.map g).reply .plain layout) := by
  have htotal : erase marks (markup.emphasize (r.map f).totalText) =
      erase marks (Markup.plain.emphasize (r.map g).totalText) := by
    rw [hmarkup, totalText, totalText, total_map, total_map]
    rfl
  cases layout with
  | singleLine => simp only [reply_singleLine, erase_append, input_map, erase_lineBody h, htotal]
  | multiLine => simp only [reply_multiLine, erase_append, input_map, erase_blockBody hmarkup h, htotal]
  | collapsible => exact absurd rfl hlayout

end Blocks

end Result

end Emphasis

namespace Responder

variable {σ : Type} [DieSource σ]

/-- Markup has no influence on what happens. Two responders that evaluate alike leave the same tray, with the same dice
rolled from it and the same texts evaluated on it, and fail alike or have results that are the same up to the texts of
their lines. If one of them has no markup, and the emphasis of the other puts characters around a text that do not occur
in the reply without markup, then this is what is left of the other reply when they are erased from it. -/
theorem answer_of_markup (responder responder' : Responder) (hevaluator : responder'.evaluator = responder.evaluator)
    (query : String) (mode : Scoring) (tray : Tray σ) :
    (responder'.answer query mode tray).2 = (responder.answer query mode tray).2 ∧
    ((∃ e, (responder.answer query mode tray).1 = .error e ∧ (responder'.answer query mode tray).1 = .error e) ∨
      ∃ r r', (responder.answer query mode tray).1 = .ok r ∧ (responder'.answer query mode tray).1 = .ok r' ∧
        r.map (fun _ => ()) = r'.map (fun _ => ()) ∧
        ∀ opening closing layout, responder.markup = .plain →
          (∀ text, responder'.markup.emphasize text = opening ++ text ++ closing) → layout ≠ .collapsible →
          (∀ c ∈ (opening ++ closing).toList, c ∉ (r.reply .plain layout).toList) →
            erase (opening ++ closing) (r'.reply responder'.markup layout) = r.reply .plain layout) := by
  cases hanswer : Query.answer responder.evaluator query mode tray with
  | mk outcome after =>
    simp only [answer, hevaluator, hanswer]
    refine ⟨trivial, ?_⟩
    cases outcome with
    | error e => exact .inl ⟨e, rfl, rfl⟩
    | ok result =>
      refine .inr ⟨_, _, rfl, rfl, ?_, ?_⟩
      · rw [Result.map_map, Result.map_map]
        rfl
      · intro opening closing layout hplain hemphasize hlayout hreply
        have hmarkup : ∀ text, erase (opening ++ closing) (responder'.markup.emphasize text) =
            erase (opening ++ closing) text := fun text => by rw [hemphasize, erase_between]
        rw [hplain] at hreply ⊢
        rw [Result.erase_reply hmarkup (Roll.erase_line hmarkup) hlayout, erase_eq_self hreply]

/-- Without its stars, what replies to two copies is what replies to them without markup. -/
theorem answer_of_markup_two_copies :
    ∃ r r' after,
      answer ⟨.plain, ⟨false, false⟩, evaluate⟩ "2x1d10" .whiteWolf (.ofDice (Script.ofList [8, 3])) = (.ok r, after) ∧
      answer ⟨.stars, ⟨false, false⟩, evaluate⟩ "2x1d10" .whiteWolf (.ofDice (Script.ofList [8, 3])) = (.ok r', after) ∧
      r.lineBody = "«1d10: 8 = 1» | «1d10: 3 = 0»" ∧ r'.lineBody = "«1d10: *8* = 1» | «1d10: 3 = 0»" ∧
      erase "**" (r'.reply .stars .singleLine) = r.reply .plain .singleLine := by
  have hplain : ((answer ⟨.plain, ⟨false, false⟩, evaluate⟩ "2x1d10" .whiteWolf
      (.ofDice (Script.ofList [8, 3]))).1.toOption.map fun r => (r.input, r.lineBody)) =
        some ("2x1d10", "«1d10: 8 = 1» | «1d10: 3 = 0»") := by
    decide +kernel
  have hstars : ((answer ⟨.stars, ⟨false, false⟩, evaluate⟩ "2x1d10" .whiteWolf
      (.ofDice (Script.ofList [8, 3]))).1.toOption.map Result.lineBody) = some "«1d10: *8* = 1» | «1d10: 3 = 0»" := by
    decide +kernel
  obtain ⟨r, after, h, hr⟩ := Query.exists_of_map_toOption hplain
  obtain ⟨r', after', h', hbody'⟩ := Query.exists_of_map_toOption hstars
  obtain ⟨hinput, hbody⟩ := Prod.mk.inj hr
  obtain ⟨htray, houtcomes⟩ := answer_of_markup ⟨.plain, ⟨false, false⟩, evaluate⟩
    ⟨.stars, ⟨false, false⟩, evaluate⟩ rfl "2x1d10" .whiteWolf (.ofDice (Script.ofList [8, 3]))
  rw [h, h'] at htray houtcomes
  obtain rfl : after' = after := htray
  refine ⟨r, r', after', h, h', hbody, hbody', ?_⟩
  obtain ⟨e, he, -⟩ | ⟨s, s', hs, hs', -, herase⟩ := houtcomes
  · cases he
  · cases hs
    cases hs'
    refine herase "*" "*" .singleLine rfl (fun text => rfl) (by decide) ?_
    have htotal : '*' ∉ r.totalText.toList := NumberStyle.not_mem_text rfl (by decide) .plain r.total
    rw [Result.reply_singleLine, hinput, hbody]
    simp [Markup.plain, htotal]

end Responder

end Tabletop

import Tabletop.Command.Responder
import Tabletop.Proofs.Answering
import Tabletop.Proofs.Matches

/-!
Positions of matches. The text that is evaluated can be made from byte ranges alone: what is between the end of one
range and the start of the next is copied, and each range has a total written over it. Such a copy can fail, at a
position that is none or within a character. Main statement: with the ranges of the matches it never does, whatever
characters are around them, and the text, the rolls and the lines of an answer agree in each place.
-/

namespace Tabletop

namespace Text

section Slices

variable {text run before behind : String} {start stop : Nat}

/-- The text between two byte positions, if these are in order and at the borders of characters. -/
def slice? (text : String) (start stop : Nat) : Option String := do
  let first ← text.pos? ⟨start⟩
  let last ← text.pos? ⟨stop⟩
  let slice ← text.slice? first last
  return slice.copy

theorem pos?_eq_some_iff {p : text.Pos} : text.pos? ⟨start⟩ = some p ↔ p.offset = ⟨start⟩ := by
  rw [String.pos?, String.Slice.pos?]
  constructor
  · intro h
    split at h
    · cases h
      rfl
    · cases h
  · intro h
    have hvalid : String.Pos.Raw.isValidForSlice text.toSlice ⟨start⟩ = true := by
      rw [String.Pos.Raw.isValidForSlice_eq_true_iff, ← h]
      exact p.isValid.toSlice
    rw [dif_pos hvalid]
    exact congrArg some (String.Pos.ext h.symm)

theorem pos?_of_append (h : text = before ++ behind) :
    text.pos? ⟨before.utf8ByteSize⟩ = some (String.Pos.ofEqAppend h) :=
  pos?_eq_some_iff.mpr (String.Pos.splits_ofEqAppend h).offset_eq_rawEndPos

theorem slice?_eq_some_iff : slice? text start stop = some run ↔
    ∃ before behind, text = before ++ run ++ behind ∧ start = before.utf8ByteSize ∧
      stop = (before ++ run).utf8ByteSize := by
  constructor
  · intro h
    simp only [slice?, Option.bind_eq_bind, Option.bind_eq_some_iff, Option.pure_def, Option.some.injEq] at h
    obtain ⟨first, hfirst, last, hlast, slice, hslice, rfl⟩ := h
    unfold String.slice? at hslice
    split at hslice
    · next hle =>
      cases hslice
      obtain ⟨before, behind, hbefore, hbehind⟩ := String.copy_slice_eq_iff_splits.mp ⟨hle, rfl⟩
      rw [pos?_eq_some_iff] at hfirst hlast
      refine ⟨before, behind, hbehind.eq_append, ?_, ?_⟩
      · exact congrArg String.Pos.Raw.byteIdx (hfirst.symm.trans hbefore.offset_eq_rawEndPos)
      · exact congrArg String.Pos.Raw.byteIdx (hlast.symm.trans hbehind.offset_eq_rawEndPos)
    · cases hslice
  · rintro ⟨before, behind, htext, rfl, rfl⟩
    have htext' : text = before ++ (run ++ behind) := by rw [htext, String.append_assoc]
    obtain ⟨hle, hrun⟩ := String.copy_slice_eq_iff_splits.mpr
      ⟨before, behind, String.Pos.splits_ofEqAppend htext', String.Pos.splits_ofEqAppend htext⟩
    simp only [slice?, pos?_of_append htext', pos?_of_append htext, String.slice?, dif_pos hle, hrun,
      Option.bind_eq_bind, Option.bind_some, Option.pure_def]

end Slices

/-- New text for a range of bytes. -/
structure Edit where
  start : Nat
  stop : Nat
  new : String
  deriving DecidableEq, Repr

/-- A text from a byte position on, with each edit made. -/
def overwrite? (text : String) (cursor : Nat) : List Edit → Option String
  | [] => slice? text cursor text.utf8ByteSize
  | ⟨start, stop, new⟩ :: edits => do
    let before ← slice? text cursor start
    let behind ← overwrite? text stop edits
    return before ++ new ++ behind

/-- The number of bytes that characters take. -/
def size (cs : List Char) : Nat := (String.ofList cs).utf8ByteSize

theorem size_append (cs ds : List Char) : size (cs ++ ds) = size cs + size ds := by
  rw [size, String.ofList_append, String.utf8ByteSize_append]
  rfl

theorem slice?_ofList (before run behind : List Char) :
    slice? (String.ofList (before ++ run ++ behind)) (size before) (size (before ++ run)) =
      some (String.ofList run) := by
  refine slice?_eq_some_iff.mpr ⟨String.ofList before, String.ofList behind, ?_, rfl, ?_⟩
  · rw [String.ofList_append, String.ofList_append]
  · rw [← String.ofList_append]
    rfl

end Text

namespace Query

open Arithmetic Text

/-- A match at its range of bytes. -/
structure Span where
  found : Match
  start : Nat
  stop : Nat

/-- The matches at their ranges, when the text before the first of them begins at `cursor`. -/
def spans (cursor : Nat) : List Match → List Span
  | [] => []
  | m :: found =>
    let start := cursor + size m.before
    let stop := start + size m.written
    ⟨m, start, stop⟩ :: spans stop found

/-- New texts for the ranges of the matches that can be read. -/
def edits (spans : List Span) (news : List String) : List Edit :=
  List.zipWith (fun span => .mk span.start span.stop) (spans.filter fun span => span.found.isReadable) news

section Spans

variable {cs done pending rest : List Char} {found : List Match} {news : List (List Char)}

theorem Matches.slice?_span (h : Matches cs found rest) :
    ∀ span ∈ spans (size done) found,
      slice? (String.ofList (done ++ cs)) span.start span.stop = some (String.ofList span.found.written) := by
  induction h generalizing done with
  | none => exact List.forall_mem_nil _
  | @next before written behind rest found _ _ _ _ ih =>
    rw [spans, List.forall_mem_cons]
    simp only [← size_append]
    constructor
    · have hslice := slice?_ofList (done ++ before) written behind
      simpa using hslice
    · have hspans := @ih (done ++ before ++ written)
      simpa using hspans

/-- The copies from range to range make the gaps with the new texts between them. -/
theorem Matches.overwrite?_eq (h : Matches cs found rest) (hlength : news.length = (terms found).length) :
    overwrite? (String.ofList (done ++ pending ++ cs)) (size done)
        (edits (spans (size (done ++ pending)) found) (news.map String.ofList)) =
      some (String.ofList (pending ++ weave (gaps found rest) news)) := by
  -- Copying has come to the end of `done`; `pending` are matches passed over since that cannot be read.
  induction h generalizing done pending news with
  | @none cs =>
    rw [List.eq_nil_of_length_eq_zero hlength]
    have hslice := slice?_ofList done (pending ++ cs) []
    simpa [overwrite?, edits, spans, weave, size] using hslice
  | @next before written behind rest found _ _ _ _ ih =>
    have hspans : spans (size (done ++ pending)) (⟨before, written⟩ :: found) =
        ⟨⟨before, written⟩, size (done ++ pending ++ before), size (done ++ pending ++ before ++ written)⟩ ::
          spans (size (done ++ pending ++ before ++ written)) found := by
      simp only [spans, ← size_append]
    rw [terms_cons] at hlength
    rw [hspans, edits, List.filter_cons, gaps_cons]
    cases hreadable : Match.isReadable ⟨before, written⟩ with
    | true =>
      rw [hreadable, if_pos rfl] at hlength
      obtain ⟨new, news, rfl⟩ := List.exists_cons_of_length_eq_add_one hlength
      have hslice := slice?_ofList done (pending ++ before) (written ++ behind)
      have hrest := @ih (done ++ pending ++ before ++ written) [] news (Nat.succ.inj hlength)
      simp only [List.append_nil, List.append_assoc] at hslice hrest
      rw [edits] at hrest
      simp only [if_true, List.map_cons, List.zipWith_cons_cons, overwrite?, List.append_assoc, hslice, hrest, weave]
      simp [String.ofList_append, String.append_assoc]
    | false =>
      rw [hreadable, if_neg Bool.false_ne_true] at hlength
      have hrest := @ih done (pending ++ before ++ written) news hlength
      simp only [Bool.false_eq_true, if_false, weave_modifyHead]
      simpa [edits] using hrest

end Spans

section Answers

variable {σ : Type} [DieSource σ] {responder : Responder} {query : String} {mode : Scoring} {tray : Tray σ}
  {found : List Match} {rest : List Char}

/-- A match that can be read and its roll name the same pool, but for the limits of a pool. -/
def RolledFor (term : List Char) (roll : Roll) : Prop := ∃ p : Pool, p.Writing term ∧ roll.pool = p.clamped

theorem rolledFor_of_rollAll {cs : List Char} {rolls : List Roll} {after : Tray σ}
    (hfound : Matches (rolledText cs) found rest)
    (hrolls : tray.rollAll (rolledMode cs mode) (leafPools cs) = (.ok rolls, after)) :
    List.Forall₂ RolledFor (terms found) rolls := by
  have hclamped : List.Forall₂ (fun term pool => ∃ p : Pool, p.Writing term ∧ pool = p.clamped) (terms found)
      ((leafPools cs).map Pool.clamped) := by
    refine List.forall₂_map_right_iff.mpr (hfound.cutsAt.pools_eq.imp ?_)
    rintro term _ ⟨p, hp, rfl⟩
    exact ⟨p, hp, p.clamped_clamped⟩
  rw [← Tray.pools_of_rollAll hrolls, List.forall₂_map_right_iff] at hclamped
  exact hclamped

/-- The line of a roll begins with the pool that was written and ends with the total. -/
theorem forall₂_line {terms : List (List Char)} {rolls : List Roll} (markup : Markup)
    (h : List.Forall₂ RolledFor terms rolls) :
    List.Forall₂ (fun place line => ∃ (p : Pool) (faces : String), p.Writing place.1 ∧
      line = p.clamped.text ++ ": " ++ faces ++ " = " ++ intText place.2.total)
      (terms.zip rolls) (rolls.map (Roll.line markup)) := by
  induction h with
  | nil => exact .nil
  | cons hroll _ ih =>
    obtain ⟨p, hp, hpool⟩ := hroll
    exact .cons ⟨p, _, hp, by rw [Roll.line, hpool]⟩ ih

/-- In a query without a mark in which there are matches that can be read, the text is cut at these matches and
nowhere else, by ranges of bytes that are all between characters. Their rolls are theirs in this order, one text is
evaluated, in which each of them gave way to the total of its roll, and each roll has its line. -/
theorem answer_positions (hmarks : ∀ c ∈ query.toList, isRepetitionMark c = false)
    (hfound : Matches (rolledText query.toList) found rest) (hterms : terms found ≠ []) :
    let text := rolledText query.toList
    text = weave (gaps found rest) (terms found) ∧ (gaps found rest).length = (terms found).length + 1 ∧
    (∀ m ∈ found, m.isReadable = false → ∃ gap ∈ gaps found rest, m.written <:+: gap) ∧
    (∀ span ∈ spans 0 found,
      slice? (String.ofList text) span.start span.stop = some (String.ofList span.found.written)) ∧
    (∀ e after, tray.rollAll (rolledMode query.toList mode) (leafPools query.toList) = (.error e, after) →
      responder.answer query mode tray = (.error e, after)) ∧
    ∀ rolls after, tray.rollAll (rolledMode query.toList mode) (leafPools query.toList) = (.ok rolls, after) →
      let totals := rolls.map fun roll => intChars roll.total
      let evaluated := String.ofList (weave (gaps found rest) totals)
      List.Forall₂ RolledFor (terms found) rolls ∧ after.evaluated = tray.evaluated ∧
      overwrite? (String.ofList text) 0 (edits (spans 0 found) (totals.map String.ofList)) = some evaluated ∧
      ∃ lines, lines.length = (terms found).length ∧
        List.Forall₂ (fun place line => ∃ (p : Pool) (faces : String), p.Writing place.1 ∧
          line = p.clamped.text ++ ": " ++ faces ++ " = " ++ intText place.2.total)
          ((terms found).zip rolls) lines ∧
        responder.answer query mode tray =
          (match responder.evaluator evaluated with
            | .ok total => .ok (.leaf query total lines)
            | .error e => .error (.arithmetic e),
            after.withTexts [evaluated]) := by
  have hpools : leafPools query.toList ≠ [] := by
    intro hnil
    have hlength := hfound.cutsAt.pools_eq.length_eq
    rw [leafPools] at hnil
    rw [hnil] at hlength
    exact hterms (List.eq_nil_of_length_eq_zero hlength)
  have hanswer : Query.answer responder.evaluator query mode tray =
      answerTerms responder.evaluator query.toList mode tray := by
    rw [answer, answerWithin_of_none (splitRepetition?_eq_none_iff.mpr hmarks),
      if_pos (isWorthReading_of_leafPools_ne_nil hpools)]
  intro text
  refine ⟨hfound.eq_weave, length_gaps found rest, fun m hm => exists_gap_of_not_readable hm, ?_, ?_, ?_⟩
  · exact @Matches.slice?_span _ [] _ _ hfound
  · intro e after hrolls
    rw [Responder.answer, hanswer, answerTerms_of_rollAll_error hrolls]
    rfl
  · intro rolls after hrolls totals evaluated
    have hlength : rolls.length = (terms found).length :=
      (Tray.length_of_rollAll hrolls).trans hfound.cutsAt.pools_eq.length_eq.symm
    have hrolled := rolledFor_of_rollAll hfound hrolls
    have htext : leafText query.toList rolls = evaluated := by
      rw [leafText, hfound.cutsAt.splice_eq _ (by rw [List.length_map, hlength]), List.map_map]
      rfl
    refine ⟨hrolled, Tray.evaluated_of_rollAll hrolls, ?_, rolls.map (Roll.line responder.markup), ?_,
      forall₂_line responder.markup hrolled, ?_⟩
    · exact @Matches.overwrite?_eq _ [] [] _ _ totals hfound (by rw [List.length_map, hlength])
    · rw [List.length_map, hlength]
    · rw [Responder.answer, hanswer, answerTerms_of_rollAll hrolls, htext, ← Tray.withTexts_singleton]
      cases responder.evaluator evaluated with
      | ok total => simp [Except.map, String.ofList_toList]
      | error e => simp [Except.map, hpools]

/-- A digit that is no ASCII one makes a match that cannot be read and takes three bytes, one of two bytes is before. -/
theorem answer_positions_wide_digit :
    ∃ found, Matches "é１d6+2d6".toList found [] ∧ terms found = ["2d6".toList] ∧
      overwrite? "é１d6+2d6" 0 (edits (spans 0 found) ["7"]) = some "é１d6+7" ∧
      (Responder.answer ⟨.plain, ⟨false, false⟩, evaluate⟩ "é１d6+2d6" .sum
        (.ofDice (Script.ofList [3, 4]))).2.evaluated = #["é１d6+7"] := by
  have hlast : Matches "+2d6".toList [⟨['+'], "2d6".toList⟩] [] :=
    .cons_of_leadingTerm? (by decide) (by decide) matches_nil
  have hfound : Matches "é１d6+2d6".toList [⟨['é'], "１d6".toList⟩, ⟨['+'], "2d6".toList⟩] [] :=
    .cons_of_leadingTerm? (by decide) (by decide) hlast
  have hmarks : ∀ c ∈ "é１d6+2d6".toList, isRepetitionMark c = false := splitRepetition?_eq_none_iff.mp rfl
  have hpools : leafPools "é１d6+2d6".toList = [⟨2, 6⟩] := by decide +kernel
  let tray := Tray.ofDice (Script.ofList [3, 4])
  have hrolls : tray.rollAll (rolledMode "é１d6+2d6".toList .sum) (leafPools "é１d6+2d6".toList) =
      (.ok [⟨⟨2, 6⟩, .sum, [3, 4]⟩], ⟨⟨[], 4⟩, #[⟨⟨2, 6⟩, .sum, [3, 4]⟩], #[]⟩) := by
    rw [hpools]
    rfl
  obtain ⟨-, -, -, -, -, hanswer⟩ :=
    @answer_positions Script _ ⟨.plain, ⟨false, false⟩, evaluate⟩ _ .sum tray _ _ hmarks hfound (by decide)
  obtain ⟨-, -, hedited, lines, -, -, hlast⟩ := hanswer _ _ hrolls
  refine ⟨_, hfound, by decide, hedited, ?_⟩
  rw [hlast]
  rfl

end Answers

end Query

end Tabletop

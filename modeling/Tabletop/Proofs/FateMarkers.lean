import Tabletop.Proofs.Repeating
import Tabletop.Proofs.Replacing
import Tabletop.Proofs.Trimming

/-!
Markers of Fate dice. A marker is the letter of a die and an F, each in either letter case, and stands for a die with
six sides. What has a marker is rolled in the Fate mode, so a query may have its markers written out beforehand: that
divides it at the same marks, into the same counts, and leaves the same pools. Main statement: a query with a marker
behind its last mark is answered in any mode as the query without markers is in the Fate mode, but for what the
results repeat of it.
-/

namespace Tabletop

namespace Result

variable {α : Type}

mutual

/-- A result without what it and its parts repeat of the query. -/
def unnamed : Result α → Result α
  | leaf _ total entries => leaf "" total entries
  | repeated _ total entries parts => repeated "" total entries (unnamedAll parts)

def unnamedAll : List (Result α) → List (Result α)
  | [] => []
  | r :: rs => unnamed r :: unnamedAll rs

end

theorem unnamedAll_eq (rs : List (Result α)) : unnamedAll rs = rs.map unnamed := by
  induction rs with
  | nil => rfl
  | cons r rs ih => rw [unnamedAll, ih, List.map_cons]

@[simp] theorem unnamed_leaf (input : String) (total : Float) (entries : List α) :
    (leaf input total entries).unnamed = leaf "" total entries := rfl

@[simp] theorem unnamed_repeated (input : String) (total : Float) (entries : List α) (parts : List (Result α)) :
    (repeated input total entries parts).unnamed = repeated "" total entries (parts.map unnamed) := by
  rw [unnamed, unnamedAll_eq]

@[simp] theorem total_unnamed (r : Result α) : r.unnamed.total = r.total := by
  cases r <;> rfl

end Result

namespace Query

section Outcomes

variable {σ : Type}

/-- What comes of a query on a tray, whatever the query is called in its results. -/
def unnamed (outcome : Except Failure (Result Roll) × Tray σ) : Except Failure (Result Roll) × Tray σ :=
  (outcome.1.map Result.unnamed, outcome.2)

theorem sumTotals_unnamed (parts : List (Result Roll)) : sumTotals (parts.map Result.unnamed) = sumTotals parts := by
  simp only [sumTotals, List.foldl_map, Result.total_unnamed]

/-- Repetitions of what differs in names alone differ in names alone, on trays between which a relation holds that
every answer keeps. -/
theorem repeatAnswer_unnamed {R : Tray σ → Tray σ → Prop}
    {answer answer' : Tray σ → Except Failure (Result Roll) × Tray σ}
    (h : ∀ tray tray', R tray tray' → R (answer tray).2 (answer' tray').2 ∧
      (answer tray).1.map Result.unnamed = (answer' tray').1.map Result.unnamed)
    (times : Nat) {done done' : List (Result Roll)} {tray tray' : Tray σ} (htray : R tray tray')
    (hdone : done.map Result.unnamed = done'.map Result.unnamed) :
    R (repeatAnswer answer times done tray).2 (repeatAnswer answer' times done' tray').2 ∧
      (repeatAnswer answer times done tray).1.map (List.map Result.unnamed) =
        (repeatAnswer answer' times done' tray').1.map (List.map Result.unnamed) := by
  induction times generalizing done done' tray tray' with
  | zero => exact ⟨htray, congrArg Except.ok (by rw [List.map_reverse, List.map_reverse, hdone])⟩
  | succ times ih =>
    obtain ⟨hafter, houtcome⟩ := h tray tray' htray
    rw [repeatAnswer, repeatAnswer]
    cases hr : answer tray with
    | mk outcome tray₁ =>
      cases hr' : answer' tray' with
      | mk outcome' tray₁' =>
        rw [hr, hr'] at hafter houtcome
        cases outcome with
        | error e =>
          cases outcome' with
          | error e' =>
            cases houtcome
            exact ⟨hafter, rfl⟩
          | ok r' => cases houtcome
        | ok r =>
          cases outcome' with
          | error e' => cases houtcome
          | ok r' =>
            have hname : r.unnamed = r'.unnamed := Except.ok.inj houtcome
            exact ih hafter (by rw [List.map_cons, List.map_cons, hname, hdone])

/-- Two repetitions differ in names alone if their parts do. -/
theorem unnamed_repeated {R : Tray σ → Tray σ → Prop}
    {outcome outcome' : Except Failure (List (Result Roll)) × Tray σ} {name name' : String}
    (h : R outcome.2 outcome'.2 ∧
      outcome.1.map (List.map Result.unnamed) = outcome'.1.map (List.map Result.unnamed)) :
    let repeated (name : String) (outcome : Except Failure (List (Result Roll)) × Tray σ) :
        Except Failure (Result Roll) × Tray σ :=
      match outcome with
      | (.error e, tray) => (.error e, tray)
      | (.ok parts, tray) => (.ok (.repeated name (sumTotals parts) [] parts), tray)
    R (repeated name outcome).2 (repeated name' outcome').2 ∧
      (repeated name outcome).1.map Result.unnamed = (repeated name' outcome').1.map Result.unnamed := by
  obtain ⟨value, tray⟩ := outcome
  obtain ⟨value', tray'⟩ := outcome'
  obtain ⟨htray, hparts⟩ := h
  refine ⟨?_, ?_⟩
  · cases value <;> cases value' <;> exact htray
  cases value with
  | error e =>
    cases value' with
    | error e' =>
      cases hparts
      rfl
    | ok parts' => cases hparts
  | ok parts =>
    cases value' with
    | error e' => cases hparts
    | ok parts' =>
      have hnames : parts.map Result.unnamed = parts'.map Result.unnamed := Except.ok.inj hparts
      simp only [Except.map, Result.unnamed_repeated, hnames]
      rw [← sumTotals_unnamed parts, hnames, sumTotals_unnamed]

end Outcomes

section Markers

variable {cs cs' front back marker : List Char} {c c' : Char}

/-- What stands for six-sided dice in the Fate mode. -/
inductive IsFateMarker : List Char → Prop
  | mk {d f : Char} : isDieLetter d = true → isFateLetter f = true → IsFateMarker [d, f]

def HasFateMarker (cs : List Char) : Prop := ∃ marker, IsFateMarker marker ∧ marker <:+: cs

/-- `Rewritten cs cs'`: each marker in `cs`, from left to right, has become a die with six sides. -/
inductive Rewritten : List Char → List Char → Prop
  | none {cs : List Char} : ¬HasFateMarker cs → Rewritten cs cs
  | next {before marker behind behind' : List Char} : ¬HasFateMarker before → IsFateMarker marker →
      Rewritten behind behind' → Rewritten (before ++ marker ++ behind) (before ++ ['d', '6'] ++ behind')

/-- No marker begins at the end of one text and ends at the start of the other. -/
def Parted (front back : List Char) : Prop :=
  ∀ c ∈ front.getLast?, ∀ c' ∈ back.head?, (isDieLetter c && isFateLetter c') = false

theorem not_isFateLetter_of_isDieLetter (h : isDieLetter c = true) : isFateLetter c = false := by
  rcases isDieLetter_iff.mp h with rfl | rfl <;> rfl

theorem not_isDieLetter_of_isRepetitionMark (h : isRepetitionMark c = true) : isDieLetter c = false := by
  have hmark : c = 'x' ∨ c = 'X' := by simpa [isRepetitionMark] using h
  rcases hmark with rfl | rfl <;> rfl

theorem not_isFateLetter_of_isRepetitionMark (h : isRepetitionMark c = true) : isFateLetter c = false := by
  have hmark : c = 'x' ∨ c = 'X' := by simpa [isRepetitionMark] using h
  rcases hmark with rfl | rfl <;> rfl

theorem Parted.of_cons (h : Parted (c :: front) back) : Parted front back := by
  intro x hx
  apply h x
  cases front with
  | nil => cases hx
  | cons y front => simpa [List.getLast?_cons_cons] using hx

theorem parted_singleton (h : ¬(isDieLetter c && isFateLetter c') = true) (cs : List Char) : Parted [c] (c' :: cs) := by
  intro x hx y hy
  cases hx
  cases hy
  exact Bool.eq_false_iff.mpr h

theorem IsFateMarker.parted (h : IsFateMarker marker) (front : List Char) : Parted front (marker ++ back) := by
  obtain @⟨d, f, hd, -⟩ := h
  intro c _ c' hc'
  cases hc'
  rw [not_isFateLetter_of_isDieLetter hd, Bool.and_false]

theorem eq_nil_or_singleton (h : ∀ c c' rest, cs = c :: c' :: rest → False) : cs = [] ∨ ∃ c, cs = [c] := by
  rcases cs with _ | ⟨c, _ | ⟨c', rest⟩⟩
  · exact .inl rfl
  · exact .inr ⟨c, rfl⟩
  · exact (h c c' rest rfl).elim

/-- The markers of two texts that are parted are those of the one and those of the other. -/
theorem expandFateMarkers_append (h : Parted front back) :
    expandFateMarkers (front ++ back) = expandFateMarkers front ++ expandFateMarkers back := by
  induction front using expandFateMarkers.induct with
  | case1 c c' cs hmarker ih =>
    rw [List.cons_append, List.cons_append, expandFateMarkers, if_pos hmarker, expandFateMarkers, if_pos hmarker,
      ih h.of_cons.of_cons, List.cons_append, List.cons_append]
  | case2 c c' cs hmarker ih =>
    rw [List.cons_append] at ih ⊢
    rw [List.cons_append, expandFateMarkers, if_neg hmarker, ih h.of_cons, expandFateMarkers, if_neg hmarker,
      List.cons_append]
  | case3 cs hshort =>
    obtain rfl | ⟨c, rfl⟩ := eq_nil_or_singleton hshort
    · rfl
    · cases back with
      | nil => rfl
      | cons b back =>
        have hborder := h c rfl b rfl
        rw [List.singleton_append, expandFateMarkers, if_neg (by simp [hborder])]
        rfl

theorem hasFateMarker_append (h : Parted front back) :
    hasFateMarker (front ++ back) = (hasFateMarker front || hasFateMarker back) := by
  induction front using hasFateMarker.induct with
  | case1 c c' cs ih =>
    rw [List.cons_append] at ih ⊢
    rw [List.cons_append, hasFateMarker, ih h.of_cons, hasFateMarker, Bool.or_assoc]
  | case2 cs hshort =>
    obtain rfl | ⟨c, rfl⟩ := eq_nil_or_singleton hshort
    · rfl
    · cases back with
      | nil => rfl
      | cons b back =>
        have hborder := h c rfl b rfl
        rw [List.singleton_append, hasFateMarker, hborder]
        rfl

theorem hasFateMarker_iff : hasFateMarker cs = true ↔ HasFateMarker cs := by
  constructor
  · intro h
    fun_induction hasFateMarker cs with
    | case1 c c' cs ih =>
      rcases Bool.or_eq_true_iff.mp h with hmarker | h
      · obtain ⟨hd, hf⟩ := Bool.and_eq_true_iff.mp hmarker
        exact ⟨[c, c'], .mk hd hf, [], cs, rfl⟩
      · obtain ⟨marker, hmarker, hin⟩ := ih h
        exact ⟨marker, hmarker, hin.trans (List.suffix_cons c _).isInfix⟩
    | case2 => cases h
  · rintro ⟨_, @⟨d, f, hd, hf⟩, front, back, rfl⟩
    have hparted : Parted front ([d, f] ++ back) := IsFateMarker.parted (.mk hd hf) front
    rw [List.append_assoc, hasFateMarker_append hparted]
    simp [hasFateMarker, hd, hf]

theorem expandFateMarkers_of_not_hasFateMarker (h : hasFateMarker cs = false) : expandFateMarkers cs = cs := by
  fun_induction expandFateMarkers cs with
  | case1 c c' cs hmarker ih => simp [hasFateMarker, hmarker] at h
  | case2 c c' cs hmarker ih =>
    rw [hasFateMarker, Bool.or_eq_false_iff] at h
    rw [ih h.2]
  | case3 => rfl

theorem IsFateMarker.expandFateMarkers_append (h : IsFateMarker marker) (back : List Char) :
    expandFateMarkers (marker ++ back) = ['d', '6'] ++ expandFateMarkers back := by
  obtain ⟨hd, hf⟩ := h
  exact if_pos (by rw [hd, hf]; rfl)

/-- What is written out begins as before, or with a letter of a die. -/
theorem head?_expandFateMarkers (hc : c ∈ (expandFateMarkers cs).head?) : c ∈ cs.head? ∨ c = 'd' := by
  rcases cs with _ | ⟨x, _ | ⟨y, cs⟩⟩
  · cases hc
  · exact .inl hc
  · rw [expandFateMarkers] at hc
    split at hc
    · cases hc
      exact .inr rfl
    · exact .inl hc

theorem Parted.expand_right (h : Parted front back) : Parted front (expandFateMarkers back) := by
  intro c hc c' hc'
  rcases head?_expandFateMarkers hc' with hc' | rfl
  · exact h c hc c' hc'
  · exact Bool.and_false _

/-- No marker is left, and none comes about. -/
theorem hasFateMarker_expandFateMarkers (cs : List Char) : hasFateMarker (expandFateMarkers cs) = false := by
  fun_induction expandFateMarkers cs with
  | case1 c c' cs hmarker ih =>
    have hparted : Parted ['d', '6'] (expandFateMarkers cs) := by
      intro x hx
      cases hx
      exact fun _ _ => rfl
    have happend := hasFateMarker_append hparted
    rwa [ih] at happend
  | case2 c c' cs hmarker ih =>
    have happend := hasFateMarker_append (parted_singleton hmarker cs).expand_right
    rwa [ih] at happend
  | case3 cs hshort =>
    obtain rfl | ⟨c, rfl⟩ := eq_nil_or_singleton hshort
    · rfl
    · rfl

theorem hasFateMarker_cons (h : Parted [c] cs) : HasFateMarker (c :: cs) ↔ HasFateMarker cs := by
  have happend := hasFateMarker_append h
  rw [← hasFateMarker_iff, ← hasFateMarker_iff]
  exact iff_of_eq (congrArg (· = true) happend)

theorem Rewritten.cons (h : Rewritten cs cs') (hc : Parted [c] cs) : Rewritten (c :: cs) (c :: cs') := by
  cases h with
  | none hnone => exact .none fun h => hnone ((hasFateMarker_cons hc).mp h)
  | @next before marker behind behind' hbefore hmarker hbehind =>
    have hfront : Parted [c] before := by
      intro x hx y hy
      apply hc x hx y
      cases before with
      | nil => cases hy
      | cons z before => exact hy
    have hnone : ¬HasFateMarker (c :: before) := by rwa [hasFateMarker_cons hfront]
    exact Rewritten.next hnone hmarker hbehind

/-- Every text can be rewritten, and in one way only. -/
theorem rewritten_iff : Rewritten cs cs' ↔ cs' = expandFateMarkers cs := by
  constructor
  · intro h
    induction h with
    | none hnone =>
      rw [← hasFateMarker_iff, Bool.not_eq_true] at hnone
      exact (expandFateMarkers_of_not_hasFateMarker hnone).symm
    | next hbefore hmarker _ ih =>
      rw [← hasFateMarker_iff, Bool.not_eq_true] at hbefore
      rw [List.append_assoc, List.append_assoc, expandFateMarkers_append (hmarker.parted _),
        hmarker.expandFateMarkers_append, expandFateMarkers_of_not_hasFateMarker hbefore, ih]
  · rintro rfl
    fun_induction expandFateMarkers cs with
    | case1 c c' cs hmarker ih =>
      obtain ⟨hd, hf⟩ := Bool.and_eq_true_iff.mp hmarker
      have hnone : ¬HasFateMarker [] := fun h => by simpa [hasFateMarker] using hasFateMarker_iff.mpr h
      exact Rewritten.next hnone (.mk hd hf) ih
    | case2 c c' cs hmarker ih =>
      exact ih.cons (parted_singleton hmarker cs)
    | case3 cs hshort =>
      apply Rewritten.none
      rw [← hasFateMarker_iff]
      obtain rfl | ⟨c, rfl⟩ := eq_nil_or_singleton hshort
      · exact Bool.false_ne_true
      · exact Bool.false_ne_true

end Markers

section Splitting

variable {cs inner : List Char} {times : Nat}

/-- A count is no number if it has the letter of a die in it. -/
theorem repetitionCount_of_dieLetter {c : Char} (hc : c ∈ cs) (hletter : isDieLetter c = true) :
    repetitionCount cs = 0 := by
  obtain ⟨lead, trail, hcs, hlead, htrail⟩ := Text.eq_append_trim cs
  have hblank : Text.isBlank c = false := by
    rcases isDieLetter_iff.mp hletter with rfl | rfl <;> rfl
  have hcore : c ∈ Text.trim cs := by
    rw [hcs] at hc
    rcases List.mem_append.mp hc with hc | hc
    · refine (List.mem_append.mp hc).resolve_left fun hc => ?_
      rw [hlead c hc] at hblank
      cases hblank
    · rw [htrail c hc] at hblank
      cases hblank
  unfold repetitionCount
  apply if_neg
  rintro ⟨-, hdigits, -⟩
  have hdigit : c.isDigit = true := by
    apply List.all_eq_true.mp hdigits
    split
    · next ds htrim =>
      rw [htrim] at hcore
      refine (List.mem_cons.mp hcore).resolve_left ?_
      rintro rfl
      cases hletter
    · exact hcore
  rcases isDieLetter_iff.mp hletter with rfl | rfl <;> cases hdigit

theorem exists_dieLetter_of_expandFateMarkers (h : hasFateMarker cs = true) :
    ∃ c ∈ expandFateMarkers cs, isDieLetter c = true := by
  fun_induction expandFateMarkers cs with
  | case1 c c' cs _ _ => exact ⟨'d', List.mem_cons_self, rfl⟩
  | case2 c c' cs hmarker ih =>
    rw [hasFateMarker, Bool.or_eq_true] at h
    obtain ⟨x, hx, hletter⟩ := ih (h.resolve_left hmarker)
    exact ⟨x, List.mem_cons_of_mem c hx, hletter⟩
  | case3 cs hshort =>
    obtain rfl | ⟨c, rfl⟩ := eq_nil_or_singleton hshort
    · cases h
    · cases h

/-- A count with a marker is none before and after. -/
theorem repetitionCount_expandFateMarkers (cs : List Char) :
    repetitionCount (expandFateMarkers cs) = repetitionCount cs := by
  cases h : hasFateMarker cs with
  | false => rw [expandFateMarkers_of_not_hasFateMarker h]
  | true =>
    obtain ⟨c, hc, hletter⟩ := dieLetter_of_hasFateMarker h
    obtain ⟨c', hc', hletter'⟩ := exists_dieLetter_of_expandFateMarkers h
    rw [repetitionCount_of_dieLetter hc hletter, repetitionCount_of_dieLetter hc' hletter']

theorem not_isRepetitionMark_expandFateMarkers (h : ∀ c ∈ cs, isRepetitionMark c = false) :
    ∀ c ∈ expandFateMarkers cs, isRepetitionMark c = false := by
  intro c hc
  rcases mem_expandFateMarkers hc with hc | rfl | rfl
  · exact h c hc
  · rfl
  · rfl

/-- A mark parts markers, and none is written out into a mark. -/
theorem splitRepetition?_expandFateMarkers (cs : List Char) :
    splitRepetition? (expandFateMarkers cs) =
      (splitRepetition? cs).map fun split => (split.1, expandFateMarkers split.2) := by
  cases h : splitRepetition? cs with
  | none =>
    rw [splitRepetition?_eq_none_iff] at h
    exact splitRepetition?_eq_none_iff.mpr (not_isRepetitionMark_expandFateMarkers h)
  | some split =>
    obtain ⟨times, inner⟩ := split
    obtain ⟨count, mark, rfl, hcount, hmark, rfl, -⟩ := segments_of_some h
    have hbefore : Parted count (mark :: inner) := by
      intro c _ c' hc'
      cases hc'
      rw [not_isFateLetter_of_isRepetitionMark hmark, Bool.and_false]
    have hbehind : Parted [mark] inner := by
      intro c hc _ _
      obtain rfl : mark = c := by simpa using hc
      rw [not_isDieLetter_of_isRepetitionMark hmark, Bool.false_and]
    have hmarks : ∀ c ∈ count, isRepetitionMark c = false := by simpa using List.countP_eq_zero.mp hcount
    have hinner : expandFateMarkers (mark :: inner) = mark :: expandFateMarkers inner :=
      expandFateMarkers_append hbehind
    rw [expandFateMarkers_append hbefore, hinner,
      splitRepetition?_append (not_isRepetitionMark_expandFateMarkers hmarks) hmark,
      repetitionCount_expandFateMarkers]
    rfl

end Splitting

section Answers

variable {σ : Type} [DieSource σ] {cs : List Char}

/-- A query without a mark that has a marker is answered as the one is that has none. -/
theorem answerTerms_expandFateMarkers (h : hasFateMarker cs = true) (evaluator : Arithmetic.Evaluator)
    (mode : Scoring) (tray : Tray σ) :
    unnamed (answerTerms evaluator cs mode tray) = unnamed (answerTerms evaluator (expandFateMarkers cs) .fate tray) := by
  have hpools : leafPools (expandFateMarkers cs) = leafPools cs := by
    simp only [leafPools, rolledText, h, hasFateMarker_expandFateMarkers, if_true, Bool.false_eq_true, if_false]
  have htext : leafText (expandFateMarkers cs) = leafText cs := by
    funext rolls
    simp only [leafText, rolledText, h, hasFateMarker_expandFateMarkers, if_true, Bool.false_eq_true, if_false]
  have hmode : rolledMode (expandFateMarkers cs) .fate = rolledMode cs mode := by
    simp only [rolledMode, h, hasFateMarker_expandFateMarkers, if_true, ite_self]
  cases hrolls : tray.rollAll (rolledMode cs mode) (leafPools cs) with
  | mk outcome after =>
    have hrolls' := hrolls
    rw [← hpools, ← hmode] at hrolls'
    cases outcome with
    | error e => rw [answerTerms_of_rollAll_error hrolls, answerTerms_of_rollAll_error hrolls']
    | ok rolls =>
      rw [answerTerms_of_rollAll hrolls, answerTerms_of_rollAll hrolls', htext, hpools]
      cases evaluator (leafText cs rolls) with
      | ok total => rfl
      | error e =>
        simp only [unnamed]
        split <;> rfl

theorem answerWithin_expandFateMarkers {levels : Nat} (h : hasFateMarker (lastSegment cs) = true)
    (evaluator : Arithmetic.Evaluator) (mode : Scoring) (tray : Tray σ) :
    unnamed (answerWithin evaluator levels cs mode tray) =
      unnamed (answerWithin evaluator levels (expandFateMarkers cs) .fate tray) := by
  induction cs using markInduction generalizing levels tray with
  | plain cs hcs =>
    have hsplit := splitRepetition?_expandFateMarkers cs
    rw [hcs, Option.map_none] at hsplit
    rw [lastSegment_of_none hcs] at h
    rw [answerWithin_of_none hcs, answerWithin_of_none hsplit,
      if_pos (isWorthReading_of_dieLetter (dieLetter_of_hasFateMarker h)),
      if_pos (isWorthReading_of_dieLetter (exists_dieLetter_of_expandFateMarkers h))]
    exact answerTerms_expandFateMarkers h evaluator mode tray
  | marked cs times inner hcs ih =>
    have hsplit := splitRepetition?_expandFateMarkers cs
    rw [hcs, Option.map_some] at hsplit
    rw [lastSegment_of_some hcs] at h
    cases levels with
    | zero =>
      rw [answerWithin_zero_of_some hcs, answerWithin_zero_of_some hsplit]
      rfl
    | succ levels =>
      rw [answerWithin_succ_of_some hcs, answerWithin_succ_of_some hsplit]
      have hinner : ∀ tray₁ tray₂ : Tray σ, tray₁ = tray₂ →
          (answerWithin evaluator levels inner mode tray₁).2 =
              (answerWithin evaluator levels (expandFateMarkers inner) .fate tray₂).2 ∧
            (answerWithin evaluator levels inner mode tray₁).1.map Result.unnamed =
              (answerWithin evaluator levels (expandFateMarkers inner) .fate tray₂).1.map Result.unnamed := by
        rintro tray₁ _ rfl
        exact (Prod.mk.inj (@ih levels h tray₁)).symm
      obtain ⟨htrays, houtcomes⟩ := unnamed_repeated (repeatAnswer_unnamed hinner times rfl rfl)
      exact Prod.ext houtcomes htrays

/-- A query with a marker behind its last mark is answered in every mode as the query is in the Fate mode in which a
die with six sides has taken the place of each marker: both fail with the same failure, or both have results that
differ only in what they repeat of the query, and the trays are the same afterwards, with the same dice, rolls and
evaluated texts. The new query is the only one of the kind, and as it has no marker it is its own. -/
theorem answer_expandFateMarkers {query : String} (h : HasFateMarker (lastSegment query.toList))
    (evaluator : Arithmetic.Evaluator) (mode : Scoring) (tray : Tray σ) :
    let query' := String.ofList (expandFateMarkers query.toList)
    (∀ cs, Rewritten query.toList cs ↔ cs = query'.toList) ∧ ¬HasFateMarker query'.toList ∧
      (∀ cs, Rewritten query'.toList cs ↔ cs = query'.toList) ∧
      (answer evaluator query mode tray).1.map Result.unnamed =
        (answer evaluator query' .fate tray).1.map Result.unnamed ∧
      (answer evaluator query mode tray).2 = (answer evaluator query' .fate tray).2 := by
  intro query'
  have hquery' : query'.toList = expandFateMarkers query.toList := String.toList_ofList
  have hnone : hasFateMarker query'.toList = false := by
    rw [hquery']
    exact hasFateMarker_expandFateMarkers query.toList
  have hanswers : unnamed (answer evaluator query mode tray) = unnamed (answer evaluator query' .fate tray) := by
    rw [answer, answer, hquery']
    exact answerWithin_expandFateMarkers (hasFateMarker_iff.mpr h) evaluator mode tray
  obtain ⟨houtcomes, htrays⟩ := Prod.mk.inj hanswers
  refine ⟨fun cs => ?_, ?_, fun cs => ?_, houtcomes, htrays⟩
  · rw [hquery']
    exact rewritten_iff
  · rw [← hasFateMarker_iff, hnone]
    exact Bool.false_ne_true
  · rw [rewritten_iff, expandFateMarkers_of_not_hasFateMarker hnone]

/-- Two copies of two markers, in White Wolf mode: a ten is the highest face of a Fate die and adds none. -/
theorem answer_expandFateMarkers_two_copies :
    let tray := Tray.ofDice (Script.ofList [1, 6, 10, 4])
    HasFateMarker (lastSegment "2x1DF-1df".toList) ∧
      (∀ cs, Rewritten "2x1DF-1df".toList cs ↔ cs = "2x1d6-1d6".toList) ∧
      (answer Arithmetic.evaluate "2x1DF-1df" .whiteWolf tray).1.map Result.unnamed =
        (answer Arithmetic.evaluate "2x1d6-1d6" .fate tray).1.map Result.unnamed ∧
      (answer Arithmetic.evaluate "2x1d6-1d6" .fate tray).2.rolled.map Roll.faces = #[[1], [6], [6], [4]] ∧
      (answer Arithmetic.evaluate "2x1DF-1df" .whiteWolf tray).2.evaluated = #["-1-1", "1-0"] := by
  intro tray
  have hquery : String.ofList (expandFateMarkers "2x1DF-1df".toList) = "2x1d6-1d6" := by decide
  have hmarker : HasFateMarker (lastSegment "2x1DF-1df".toList) := hasFateMarker_iff.mp (by decide +kernel)
  have hanswers := answer_expandFateMarkers hmarker Arithmetic.evaluate .whiteWolf tray
  rw [hquery] at hanswers
  obtain ⟨hrewritten, -, -, houtcomes, htrays⟩ := hanswers
  refine ⟨hmarker, hrewritten, houtcomes, ?_, ?_⟩
  · rw [← htrays]
    decide +kernel
  · decide +kernel

end Answers

end Query

end Tabletop

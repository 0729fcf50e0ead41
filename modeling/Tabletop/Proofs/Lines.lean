import Tabletop.Command.Responder
import Tabletop.Proofs.Exploding
import Tabletop.Proofs.OneSided
import Mathlib.Data.List.Count

/-!
Reading lines. What a line says is a pool, what its dice show and a total, and no two different things are written
the same way: a number ends where its digits do, and the faces end where an equals sign is behind a blank. Main
statement: each line of an answer without markup says how it came about, with as many faces as the pool and its tens
call for, each of which the die has, and with the total that they score.
-/

namespace Tabletop

open Arithmetic

/-- What is said in the line of a roll. -/
structure Line where
  pool : Pool
  faces : List Face
  total : Int
  deriving DecidableEq, Repr

namespace Face

def text : Face → String
  | number n => Nat.repr n
  | symbol s => s.text

def chars (face : Face) : List Char := face.text.toList

/-- What a face that is shown contributes to the total. -/
def score (mode : Scoring) : Face → Int
  | number n => mode.score n
  | symbol s => s.score

end Face

def Line.text (l : Line) : String :=
  l.pool.text ++ ": " ++ " ".intercalate (l.faces.map Face.text) ++ " = " ++ intText l.total

section Reading

variable {m n : Nat} {t u : Int} {xs ys : List Char} {face face' : Face} {faces faces' : List Face}

theorem toDigits_injective (h : Nat.toDigits 10 m = Nat.toDigits 10 n) : m = n := by
  rw [← @Nat.ofDigitChars_ten_toDigits m, h, Nat.ofDigitChars_ten_toDigits]

theorem toDigits_append_inj (h : Nat.toDigits 10 m ++ xs = Nat.toDigits 10 n ++ ys)
    (hxs : ∀ c ∈ xs.head?, c.isDigit = false) (hys : ∀ c ∈ ys.head?, c.isDigit = false) : m = n ∧ xs = ys := by
  have hdigits (k : Nat) : ∀ c ∈ Nat.toDigits 10 k, c.isDigit = true := fun _ => isDigit_of_mem_toDigits
  obtain ⟨hrun, hrest⟩ := span_append_inj h (hdigits m) hxs (hdigits n) hys
  exact ⟨toDigits_injective hrun, hrest⟩

theorem toDigits_eq_cons (n : Nat) : ∃ d ds, Nat.toDigits 10 n = d :: ds ∧ d.isDigit = true := by
  obtain ⟨d, ds, hds⟩ := List.exists_cons_of_ne_nil (@Nat.toDigits_ne_nil n 10)
  refine ⟨d, ds, hds, isDigit_of_mem_toDigits (n := n) ?_⟩
  rw [hds]
  exact List.mem_cons_self

theorem intChars_injective (h : intChars t = intChars u) : t = u := by
  cases t with
  | ofNat m =>
    cases u with
    | ofNat n => exact congrArg Int.ofNat (toDigits_injective h)
    | negSucc n =>
      obtain ⟨d, ds, hds, hd⟩ := toDigits_eq_cons m
      obtain ⟨rfl, -⟩ := List.cons.inj (hds.symm.trans h)
      cases hd
  | negSucc m =>
    cases u with
    | ofNat n =>
      obtain ⟨d, ds, hds, hd⟩ := toDigits_eq_cons n
      obtain ⟨rfl, -⟩ := List.cons.inj (hds.symm.trans h.symm)
      cases hd
    | negSucc n => exact congrArg Int.negSucc (Nat.succ.inj (toDigits_injective (List.cons.inj h).2))

@[simp] theorem Face.chars_number (n : Nat) : (Face.number n).chars = Nat.toDigits 10 n := Nat.toList_repr

theorem Face.chars_symbol (s : FateSymbol) : ∃ cs, (Face.symbol s).chars = '[' :: cs := by
  cases s <;> exact ⟨_, rfl⟩

/-- A symbol begins with a bracket, in the place of a digit. -/
theorem Face.chars_symbol_ne (s : FateSymbol) (n : Nat) :
    (Face.symbol s).chars ++ xs ≠ (Face.number n).chars ++ ys := by
  intro h
  obtain ⟨d, ds, hds, hd⟩ := toDigits_eq_cons n
  obtain ⟨cs, hcs⟩ := Face.chars_symbol s
  rw [Face.chars_number, hds, hcs] at h
  obtain ⟨rfl, -⟩ := List.cons.inj h
  cases hd

theorem Face.chars_eq_cons (face : Face) : ∃ c cs, face.chars = c :: cs ∧ c ≠ ' ' ∧ c ≠ '=' := by
  cases face with
  | number n =>
    obtain ⟨d, ds, hds, hd⟩ := toDigits_eq_cons n
    refine ⟨d, ds, by rw [Face.chars_number, hds], ?_, ?_⟩ <;>
    · rintro rfl
      cases hd
  | symbol s =>
    obtain ⟨cs, hcs⟩ := Face.chars_symbol s
    exact ⟨'[', cs, hcs, by decide, by decide⟩

/-- A face ends in front of the next blank that is in no brackets. -/
theorem Face.chars_append_inj (h : face.chars ++ ' ' :: xs = face'.chars ++ ' ' :: ys) : face = face' ∧ xs = ys := by
  cases face with
  | number m =>
    cases face' with
    | number n =>
      rw [chars_number, chars_number] at h
      obtain ⟨rfl, hrest⟩ := toDigits_append_inj h (by simp) (by simp)
      exact ⟨rfl, (List.cons.inj hrest).2⟩
    | symbol s => exact absurd h.symm (chars_symbol_ne s m)
  | symbol s =>
    cases face' with
    | number n => exact absurd h (chars_symbol_ne s n)
    | symbol s' => cases s <;> cases s' <;> simp_all [chars, text, FateSymbol.text]

/-- Faces with a blank in front of each. -/
def spaced (faces : List Face) : List Char := faces.flatMap fun face => ' ' :: face.chars

theorem spaced_cons (face : Face) (faces : List Face) :
    spaced (face :: faces) = ' ' :: (face.chars ++ spaced faces) := rfl

theorem spaced_append_eq_cons (faces : List Face) (xs : List Char) : ∃ zs, spaced faces ++ ' ' :: xs = ' ' :: zs := by
  cases faces <;> exact ⟨_, rfl⟩

/-- Neither a blank nor an equals sign is where a face begins. -/
theorem spaced_append_ne {c : Char} (hc : c = ' ' ∨ c = '=') (face : Face) (faces : List Face) :
    ' ' :: c :: xs ≠ spaced (face :: faces) ++ ys := by
  intro h
  obtain ⟨d, ds, hds, hblank, hequals⟩ := face.chars_eq_cons
  rw [spaced_cons, hds] at h
  obtain ⟨rfl, -⟩ := List.cons.inj (List.cons.inj h).2
  exact hc.elim hblank hequals

/-- Faces end where an equals sign is behind a blank. -/
theorem spaced_append_inj (h : spaced faces ++ ' ' :: '=' :: xs = spaced faces' ++ ' ' :: '=' :: ys) :
    faces = faces' ∧ xs = ys := by
  induction faces generalizing faces' with
  | nil =>
    cases faces' with
    | nil => exact ⟨rfl, by simpa [spaced] using h⟩
    | cons face' faces' => exact absurd h (spaced_append_ne (.inr rfl) face' faces')
  | cons face faces ih =>
    cases faces' with
    | nil => exact absurd h.symm (spaced_append_ne (.inr rfl) face faces)
    | cons face' faces' =>
      obtain ⟨zs, hzs⟩ := spaced_append_eq_cons faces ('=' :: xs)
      obtain ⟨zs', hzs'⟩ := spaced_append_eq_cons faces' ('=' :: ys)
      rw [spaced_cons, spaced_cons, List.cons_append, List.cons_append, List.append_assoc, List.append_assoc, hzs,
        hzs'] at h
      obtain ⟨rfl, rfl⟩ := Face.chars_append_inj (List.cons.inj h).2
      obtain ⟨rfl, rfl⟩ := ih (hzs.trans hzs'.symm)
      exact ⟨rfl, rfl⟩

theorem intercalate_chars (face : Face) (faces : List Face) :
    ' ' :: List.intercalate [' '] ((face :: faces).map Face.chars) = spaced (face :: faces) := by
  induction faces generalizing face with
  | nil => simp [spaced]
  | cons face' faces ih =>
    rw [List.map_cons, List.intercalate_cons_of_ne_nil (by simp), spaced_cons, ← ih]
    simp

end Reading

namespace Line

variable {l l' : Line}

theorem toList_text (l : Line) : l.text.toList = Nat.toDigits 10 l.pool.count ++ 'd' ::
    (Nat.toDigits 10 l.pool.sides ++ ':' :: ' ' :: (List.intercalate [' '] (l.faces.map Face.chars) ++
      ' ' :: '=' :: ' ' :: intChars l.total)) := by
  have hchars : l.faces.map (String.toList ∘ Face.text) = l.faces.map Face.chars := rfl
  simp [text, Pool.text, Pool.chars, intText, hchars]

/-- What is between the colon and the equals sign says which faces there are. -/
theorem intercalate_append_inj {xs ys : List Char} {faces faces' : List Face}
    (h : List.intercalate [' '] (faces.map Face.chars) ++ ' ' :: '=' :: xs =
      List.intercalate [' '] (faces'.map Face.chars) ++ ' ' :: '=' :: ys) : faces = faces' ∧ xs = ys := by
  have hblank := congrArg (' ' :: ·) h
  simp only [← List.cons_append] at hblank
  cases faces with
  | nil =>
    cases faces' with
    | nil => exact ⟨rfl, by simpa using h⟩
    | cons face' faces' =>
      rw [intercalate_chars] at hblank
      exact absurd hblank (spaced_append_ne (.inl rfl) face' faces')
  | cons face faces =>
    cases faces' with
    | nil =>
      rw [intercalate_chars] at hblank
      exact absurd hblank.symm (spaced_append_ne (.inl rfl) face faces)
    | cons face' faces' =>
      rw [intercalate_chars, intercalate_chars] at hblank
      exact spaced_append_inj hblank

/-- No two lines are written the same way. -/
theorem text_injective (h : l.text = l'.text) : l = l' := by
  have hlist := congrArg String.toList h
  rw [toList_text, toList_text] at hlist
  obtain ⟨hcount, hrest⟩ := toDigits_append_inj hlist (by simp) (by simp)
  obtain ⟨hsides, hrest⟩ := toDigits_append_inj (List.cons.inj hrest).2 (by simp) (by simp)
  obtain ⟨hfaces, hrest⟩ := intercalate_append_inj (List.cons.inj (List.cons.inj hrest).2).2
  have htotal := intChars_injective (List.cons.inj hrest).2
  obtain ⟨⟨count, sides⟩, faces, total⟩ := l
  cases hcount
  cases hsides
  cases hfaces
  cases htotal
  rfl

end Line

section Rolls

variable {σ : Type} [DieSource σ] {mode : Scoring} {sides queued : Nat} {s s' : σ} {faces : List Nat} {p : Pool}
  {r : Roll}

/-- A queue shows its dice and those that its faces add. -/
theorem Drawn.length_eq (h : Drawn sides mode queued s faces s') : faces.length = queued + mode.added faces := by
  induction h with
  | empty s => rfl
  | die _ ih =>
    rw [List.length_cons, ih, Scoring.added_cons]
    omega

theorem Drawn.mem_range [LawfulDieSource σ] (h : Drawn sides mode queued s faces s') (hsides : 1 ≤ sides) :
    ∀ face ∈ faces, 1 ≤ face ∧ face ≤ sides := by
  induction h with
  | empty s => exact List.forall_mem_nil _
  | @die _ s _ _ _ ih =>
    exact List.forall_mem_cons.mpr ⟨⟨LawfulDieSource.one_le_draw sides s, LawfulDieSource.draw_le s hsides⟩, ih⟩

/-- What the line of a roll says. -/
def Roll.record (r : Roll) : Line := ⟨r.pool, r.listing, r.total⟩

theorem Scoring.text_shown (mode : Scoring) (face : Nat) :
    (mode.shown face).text = Roll.faceText .plain mode face := by
  cases mode <;> simp [shown, Face.text, Roll.faceText, Markup.plain]

theorem Roll.text_record (r : Roll) : r.record.text = r.line .plain := by
  have hfaces : r.listing.map Face.text = r.faces.map (Roll.faceText .plain r.mode) := by
    rw [listing, List.map_map]
    exact List.map_congr_left fun face _ => r.mode.text_shown face
  rw [Line.text, record, hfaces, line]

theorem Scoring.score_shown (mode : Scoring) (face : Nat) : (mode.shown face).score mode = mode.score face := by
  cases mode <;> rfl

theorem Roll.total_eq_score (r : Roll) : r.total = (r.listing.map (Face.score r.mode)).sum := by
  rw [total_eq_sum, listing, List.map_map]
  exact congrArg List.sum (List.map_congr_left fun face _ => (r.mode.score_shown face).symm)

theorem Roll.listing_of_fate (h : r.mode = .fate) :
    r.listing = r.faces.map fun face => Face.symbol (.ofFace face) := by
  rw [listing, h]
  rfl

theorem Roll.listing_of_ne_fate (h : r.mode ≠ .fate) : r.listing = r.faces.map Face.number :=
  List.map_congr_left fun _ _ => if_neg h

/-- No number is shown on Fate dice, and every face is shown as its number on all others. -/
theorem Roll.count_listing (r : Roll) (n : Nat) :
    r.listing.count (.number n) = if r.mode = .fate then 0 else r.faces.count n := by
  by_cases h : r.mode = .fate
  · rw [if_pos h, listing_of_fate h]
    exact List.count_eq_zero_of_not_mem (by simp)
  · rw [if_neg h, listing_of_ne_fate h]
    exact List.count_map_of_injective _ _ (fun _ _ => Face.number.inj) n

theorem Roll.symbol_of_mem_listing {face : Face} (h : face ∈ r.listing) :
    (∃ symbol, face = .symbol symbol) ↔ r.mode = .fate := by
  obtain ⟨n, -, rfl⟩ := List.mem_map.mp h
  by_cases hmode : r.mode = .fate <;> simp [Scoring.shown, hmode]

theorem Roll.mem_faces_of_mem_listing {n : Nat} (h : .number n ∈ r.listing) : n ∈ r.faces := by
  by_cases hmode : r.mode = .fate
  · rw [listing_of_fate hmode] at h
    simp at h
  · rw [listing_of_ne_fate hmode] at h
    simpa using h

/-- A roll shows the faces of its pool and one more for each ten among them, if tens explode. -/
theorem Pool.length_listing_of_roll? (h : p.roll? mode s = some (r, s')) :
    r.listing.length = r.pool.count + if mode = .whiteWolf then r.listing.count (.number 10) else 0 := by
  obtain ⟨⟨hpool, hmode, hdrawn⟩, -⟩ := roll?_eq_some_iff.mp h
  rw [Roll.listing, List.length_map, hdrawn.length_eq, Scoring.added_eq, ← hpool]
  by_cases hww : mode = .whiteWolf
  · have hcount := r.count_listing 10
    rw [if_neg (by simp [hmode, hww])] at hcount
    rw [if_pos hww, if_pos hww, ← Roll.listing, hcount]
    rfl
  · rw [if_neg hww, if_neg hww]

theorem Pool.mem_range_of_roll? [LawfulDieSource σ] (h : p.roll? mode s = some (r, s')) :
    ∀ face ∈ r.faces, 1 ≤ face ∧ face ≤ r.pool.sides := by
  obtain ⟨⟨hpool, -, hdrawn⟩, -⟩ := roll?_eq_some_iff.mp h
  rw [hpool]
  exact hdrawn.mem_range p.one_le_clamped_sides

end Rolls

namespace Result

variable {α β : Type} (f : α → β)

theorem leaves_map (r : Result α) : (r.map f).leaves = r.leaves.map (map f) := by
  induction r with
  | leaf => rfl
  | repeated input total entries parts ih =>
    rw [map_repeated, leaves_repeated, leaves_repeated, List.flatMap_map, List.map_flatMap]
    exact List.flatMap_congr ih

theorem map_map {γ : Type} (g : β → γ) (r : Result α) : (r.map f).map g = r.map (g ∘ f) := by
  induction r with
  | leaf => rw [map_leaf, map_leaf, map_leaf, List.map_map]
  | repeated input total entries parts ih =>
    rw [map_repeated, map_repeated, map_repeated, List.map_map, List.map_map]
    exact congrArg _ (List.map_congr_left ih)

theorem entries_map (r : Result α) : (r.map f).entries = r.entries.map f := by cases r <;> rfl

theorem input_map (r : Result α) : (r.map f).input = r.input := by cases r <;> rfl

theorem total_map (r : Result α) : (r.map f).total = r.total := by cases r <;> rfl

theorem leafEntries_map (r : Result α) : (r.map f).leafEntries = r.leafEntries.map f := by
  rw [leafEntries_eq, leafEntries_eq, leaves_map, List.flatMap_map, List.map_flatMap]
  exact List.flatMap_congr fun leaf _ => entries_map f leaf

end Result

namespace Query

variable {σ : Type}

/-- What is known of a value says that there is one. -/
theorem exists_of_map_toOption {α β ε : Type} {outcome : Except ε α × Tray σ} {f : α → β} {b : β}
    (h : outcome.1.toOption.map f = some b) : ∃ a after, outcome = (.ok a, after) ∧ f a = b := by
  obtain ⟨a, ha, hb⟩ := Option.map_eq_some_iff.mp h
  obtain ⟨_, after, houtcome⟩ := exists_of_isSome (Option.isSome_of_eq_some ha)
  rw [houtcome] at ha
  cases ha
  exact ⟨a, after, houtcome, hb⟩

variable [DieSource σ] {evaluator : Evaluator} {query : String} {mode : Scoring} {tray tray' : Tray σ}

/-- The entries of a leaf were rolled in the mode of its text. -/
theorem rolled_of_answer {r : Result Roll} (h : answer evaluator query mode tray = (.ok r, tray')) :
    ∀ leaf ∈ r.leaves, ∀ roll ∈ leaf.entries, ∃ (p : Pool) (s s' : σ),
      p.roll? (rolledMode leaf.input.toList mode) s = some (roll, s') := by
  refine (answers_of_answerWithin h).2.forall ?_
  intro tray leaf tray' hleaf
  obtain ⟨hinput, -⟩ := answerWithin_zero_eq_ok hleaf
  cases hcs : splitRepetition? (behind maxRepetitions query.toList) with
  | some split =>
    rw [answerWithin_zero_of_some hcs] at hleaf
    cases hleaf
    exact List.forall_mem_nil _
  | none =>
    obtain ⟨-, tray₁, hrolls, -⟩ := leaf_eq_ok hcs hleaf
    rw [hinput, String.toList_ofList]
    exact Tray.forall_of_rollAll hrolls fun p s _ s' hr => ⟨p, s, s', hr⟩

theorem rolledMode_eq_fate_iff {cs : List Char} :
    rolledMode cs mode = .fate ↔ hasFateMarker cs = true ∨ mode = .fate := by
  unfold rolledMode
  split <;> simp_all

theorem length_listing_of_rolledMode {cs : List Char} {p : Pool} {s s' : σ} {roll : Roll}
    (h : p.roll? (rolledMode cs mode) s = some (roll, s')) :
    roll.listing.length = roll.pool.count + if mode = .whiteWolf then roll.listing.count (.number 10) else 0 := by
  have hlength := Pool.length_listing_of_roll? h
  by_cases hfate : hasFateMarker cs = true
  · -- Fate dice show no ten.
    have hmode : roll.mode = .fate := by rw [(Pool.roll?_eq_some h).2.1, rolledMode, if_pos hfate]
    rw [roll.count_listing, if_pos hmode, ite_self] at hlength ⊢
    exact hlength
  · rw [rolledMode, if_neg hfate] at hlength
    exact hlength

/-- Each line of an answer without markup is the text of one pool, one list of faces and one total and of no others.
The pool is within its limits; its dice show symbols in a leaf with a marker of Fate dice or in the Fate mode and
numbers otherwise, one for each die and in the White Wolf mode one more for each ten that is shown; the numbers are
faces of the die if the source hands out none but these; and the total is what is shown, scored once more. -/
theorem answer_lines {display : Display} {r : Result String}
    (h : Responder.answer ⟨.plain, display, evaluator⟩ query mode tray = (.ok r, tray')) :
    ∀ leaf ∈ r.leaves, ∀ line ∈ leaf.entries, ∃ l : Line, l.text = line ∧ (∀ l' : Line, l'.text = line → l' = l) ∧
      l.pool.count ≤ 100 ∧ 1 ≤ l.pool.sides ∧ l.pool.sides ≤ 1000 ∧
      (∀ face ∈ l.faces, (∃ symbol, face = .symbol symbol) ↔
        hasFateMarker leaf.input.toList = true ∨ mode = .fate) ∧
      l.faces.length = l.pool.count + (if mode = .whiteWolf then l.faces.count (.number 10) else 0) ∧
      (LawfulDieSource σ → ∀ n, .number n ∈ l.faces → 1 ≤ n ∧ n ≤ l.pool.sides) ∧
      l.total = (l.faces.map (Face.score (rolledMode leaf.input.toList mode))).sum := by
  cases hanswer : answer evaluator query mode tray with
  | mk outcome after =>
    simp only [Responder.answer, hanswer] at h
    cases outcome with
    | error e => cases h
    | ok result =>
      cases h
      rw [Result.leaves_map, List.forall_mem_map]
      intro leaf hleaf
      rw [Result.entries_map, Result.input_map, List.forall_mem_map]
      intro roll hroll
      obtain ⟨p, s, s', hp⟩ := rolled_of_answer hanswer leaf hleaf roll hroll
      obtain ⟨hpool, hmode, -⟩ := Pool.roll?_eq_some hp
      have hrecord : roll.record.pool = p.clamped := hpool
      have hfate : roll.mode = .fate ↔ hasFateMarker leaf.input.toList = true ∨ mode = .fate := by
        rw [hmode, rolledMode_eq_fate_iff]
      refine ⟨roll.record, roll.text_record, ?_, ?_, ?_, ?_, ?_, ?_, ?_, ?_⟩
      · intro l' hl'
        exact Line.text_injective (hl'.trans roll.text_record.symm)
      · rw [hrecord]
        exact p.clamped_count_le
      · rw [hrecord]
        exact p.one_le_clamped_sides
      · rw [hrecord]
        exact p.clamped_sides_le
      · exact fun face hface => (Roll.symbol_of_mem_listing hface).trans hfate
      · exact length_listing_of_rolledMode hp
      · intro hlawful n hn
        exact Pool.mem_range_of_roll? hp n (Roll.mem_faces_of_mem_listing hn)
      · exact hmode ▸ roll.total_eq_score

/-- In the second of two repetitions a ten adds a die. -/
theorem answer_lines_repeated_ten :
    ∃ r after, Responder.answer ⟨.plain, ⟨false, false⟩, evaluate⟩ "2x1d10" .whiteWolf
        (.ofDice (Script.ofList [3, 10, 8])) = (.ok r, after) ∧
      r.leaves.map Result.entries = [["1d10: 3 = 0"], ["1d10: 10 8 = 2"]] ∧
      ∃ l : Line, l.text = "1d10: 10 8 = 2" ∧ (∀ l' : Line, l'.text = "1d10: 10 8 = 2" → l' = l) ∧
        l.faces.length = l.pool.count + l.faces.count (.number 10) := by
  let tray := Tray.ofDice (Script.ofList [3, 10, 8])
  have hentries : ((Responder.answer ⟨.plain, ⟨false, false⟩, evaluate⟩ "2x1d10" .whiteWolf tray).1.toOption.map
      fun r => r.leaves.map Result.entries) = some [["1d10: 3 = 0"], ["1d10: 10 8 = 2"]] := by
    decide +kernel
  obtain ⟨r, after, h, hleaves⟩ := exists_of_map_toOption hentries
  refine ⟨r, after, h, hleaves, ?_⟩
  have hlast : ["1d10: 10 8 = 2"] ∈ r.leaves.map Result.entries := by
    rw [hleaves]
    decide
  obtain ⟨leaf, hleaf, hline⟩ := List.mem_map.mp hlast
  obtain ⟨l, htext, hunique, -, -, -, -, hlength, -⟩ := answer_lines h leaf hleaf "1d10: 10 8 = 2" (by simp [hline])
  exact ⟨l, htext, hunique, hlength⟩

end Query

end Tabletop

import Tabletop.Proofs.SingleLine

/-!
Replies on several lines. Repetitions are shown in blocks that begin with a header and end with an empty line, and a
block with repetitions of its own holds their blocks, set in further. Read by lines that are not blank, a text is its
parts one behind the other wherever a line ends, so the frames of the blocks leave nothing but their headers. Main
statement: the lines of a body are the headers of all repetitions, each in front of what it repeats and at the indent
of its level, with the items of the rolls behind the headers of those that are not repeated further.
-/

namespace Tabletop

open Arithmetic

namespace Text

/-- A choice of the characters at which lines end, a line feed among them. -/
structure LineEnds (isEnd : Char → Bool) : Prop where
  newline : isEnd '\n' = true
  isLineBreak : ∀ c, isEnd c = true → isLineBreak c = true

/-- Without an end of a line. -/
def Unbroken (isEnd : Char → Bool) (text : String) : Prop := ∀ c ∈ text.toList, isEnd c = false

instance (isEnd : Char → Bool) (text : String) : Decidable (Unbroken isEnd text) :=
  decidable_of_iff (text.toList.all (!isEnd ·) = true) (by simp [Unbroken])

/-- The lines of a text that are not blank. -/
def visibleLines (isEnd : Char → Bool) (text : String) : List String :=
  ((text.toList.splitOnP isEnd).filter fun line => !line.all isBlank).map String.ofList

section Lines

variable {isEnd : Char → Bool} {text : String}

/-- A line feed ends a line, whatever stands before and behind it. -/
theorem visibleLines_append (h : LineEnds isEnd) (front back : String) :
    visibleLines isEnd (front ++ "\n" ++ back) = visibleLines isEnd front ++ visibleLines isEnd back := by
  have htext : (front ++ "\n" ++ back).toList = front.toList ++ '\n' :: back.toList := by simp
  simp only [visibleLines, htext, List.splitOnP_append_cons _ _ h.newline, List.filter_append, List.map_append]

theorem visibleLines_empty : visibleLines isEnd "" = [] := rfl

theorem visibleLines_intercalate (h : LineEnds isEnd) (texts : List String) :
    visibleLines isEnd ("\n".intercalate texts) = texts.flatMap (visibleLines isEnd) := by
  induction texts with
  | nil => rfl
  | cons text texts ih =>
    cases texts with
    | nil => simp
    | cons next texts =>
      rw [String.intercalate_cons_cons, visibleLines_append h, ih]
      rfl

theorem visibleLines_of_unbroken (h : Unbroken isEnd text) (hblank : ¬Blanks text.toList) :
    visibleLines isEnd text = [text] := by
  have hvisible : text.toList.all isBlank = false := by
    rw [Bool.eq_false_iff, ne_eq, List.all_eq_true]
    exact hblank
  rw [visibleLines, List.splitOnP_eq_singleton h, List.filter_cons_of_pos (by simp [hvisible])]
  simp

theorem Unbroken.append {front back : String} (hfront : Unbroken isEnd front) (hback : Unbroken isEnd back) :
    Unbroken isEnd (front ++ back) := by
  intro c hc
  rw [String.toList_append, List.mem_append] at hc
  exact hc.elim (hfront c) (hback c)

theorem LineEnds.unbroken (h : LineEnds isEnd) (hwords : text.toList.all (!Text.isLineBreak ·) = true) :
    Unbroken isEnd text := by
  intro c hc
  apply Bool.eq_false_iff.mpr
  intro hend
  have hnot := List.all_eq_true.mp hwords c hc
  rw [h.isLineBreak c hend] at hnot
  cases hnot

end Lines

end Text

open Text

namespace Result

section Inside

variable {α : Type}

mutual

/-- The results inside a result with their levels, each in front of those inside it; the parts of the result itself
are on the given level. -/
def inside (level : Nat) : Result α → List (Nat × Result α)
  | leaf _ _ _ => []
  | repeated _ _ _ parts => insideAll level parts

def insideAll (level : Nat) : List (Result α) → List (Nat × Result α)
  | [] => []
  | r :: rs => (level, r) :: (inside (level + 1) r ++ insideAll level rs)

end

/-- The entries that a result shows itself: a repetition leaves it to its parts. -/
def shownEntries : Result α → List α
  | leaf _ _ entries => entries
  | repeated _ _ _ _ => []

theorem insideAll_eq (level : Nat) (rs : List (Result α)) :
    insideAll level rs = rs.flatMap fun r => (level, r) :: inside (level + 1) r := by
  induction rs with
  | nil => rfl
  | cons r rs ih => rw [insideAll, ih, List.flatMap_cons, List.cons_append]

theorem inside_repeated (level : Nat) (input : String) (total : Float) (entries : List α) (parts : List (Result α)) :
    inside level (repeated input total entries parts) =
      parts.flatMap fun part => (level, part) :: inside (level + 1) part := by
  rw [inside, insideAll_eq]

theorem mem_nodesAt_of_part {input : String} {total : Float} {entries : List α} {parts : List (Result α)}
    {part node : Result α} {i : Nat} (hpart : part ∈ parts) (hnode : node ∈ part.nodesAt i) :
    node ∈ (repeated input total entries parts).nodesAt (i + 1) :=
  List.mem_flatMap.mpr ⟨part, hpart, hnode⟩

theorem le_of_mem_inside {level : Nat} {r : Result α} {x : Nat × Result α} (h : x ∈ r.inside level) : level ≤ x.1 := by
  induction r generalizing level with
  | leaf => cases h
  | repeated input total entries parts ih =>
    rw [inside_repeated] at h
    obtain ⟨part, hpart, h⟩ := List.mem_flatMap.mp h
    rcases List.mem_cons.mp h with rfl | h
    · exact Nat.le_refl level
    · exact Nat.le_of_succ_le (ih part hpart h)

/-- On each level the results inside are those that many repetitions below, in their order. -/
theorem filter_inside (r : Result α) (level i : Nat) :
    ((r.inside level).filter fun x => x.1 == level + i).map Prod.snd = r.nodesAt (i + 1) := by
  induction r generalizing level i with
  | leaf => rfl
  | repeated input total entries parts ih =>
    rw [inside_repeated, List.filter_flatMap, List.map_flatMap]
    refine List.flatMap_congr fun part hpart => ?_
    cases i with
    | zero =>
      have hbelow : (part.inside (level + 1)).filter (fun x => x.1 == level) = [] := by
        refine List.filter_eq_nil_iff.mpr fun x hx => ?_
        have := le_of_mem_inside hx
        simp
        omega
      simp [hbelow, nodesAt]
    | succ i =>
      have hlevel : level + (i + 1) = level + 1 + i := by omega
      rw [List.filter_cons_of_neg (by simp), hlevel]
      exact ih part hpart (level + 1) i

end Inside

/-- The lines of a repetition on its level: its header, and the items of its own rolls. -/
def nodeLines (markup : Markup) (level : Nat) (node : Result String) : List String :=
  (indent level ++ markup.emphasize node.input ++ ":") :: node.shownEntries.map (item level)

section Blocks

variable {isEnd : Char → Bool} {markup : Markup} {level : Nat} {r : Result String}

theorem not_blanks_append {front back : String} {c : Char} (hc : c ∈ back.toList) (hvisible : isBlank c = false) :
    ¬Blanks (front ++ back).toList := by
  intro hblanks
  have hblank := hblanks c (by simp [hc])
  rw [hvisible] at hblank
  cases hblank

theorem unbroken_indent (h : LineEnds isEnd) (level : Nat) : Unbroken isEnd (indent level) := by
  apply h.unbroken
  rw [indent, String.toList_ofList]
  apply List.all_eq_true.mpr
  intro c hc
  rw [(List.mem_replicate.mp hc).2]
  rfl

/-- The frame of a block has one line that is not blank, its header. -/
theorem visibleLines_framed (h : LineEnds isEnd) {input : String} (hinput : Unbroken isEnd (markup.emphasize input))
    (body : String) : visibleLines isEnd (header markup level input ++ body ++ "\n") =
      (indent level ++ markup.emphasize input ++ ":") :: visibleLines isEnd body := by
  have hline : Unbroken isEnd (indent level ++ markup.emphasize input ++ ":") :=
    ((unbroken_indent h level).append hinput).append (h.unbroken (by decide))
  have htext : header markup level input ++ body ++ "\n" =
      indent level ++ markup.emphasize input ++ ":" ++ "\n" ++ (body ++ "\n" ++ "") := by
    simp [header, ← String.toList_inj]
  rw [htext, visibleLines_append h, visibleLines_append h, visibleLines_empty, List.append_nil,
    visibleLines_of_unbroken hline (not_blanks_append (c := ':') (by simp) (by decide)), List.singleton_append]

theorem visibleLines_item (h : LineEnds isEnd) {line : String} (hline : Unbroken isEnd line) :
    visibleLines isEnd (item level line) = [item level line] := by
  apply visibleLines_of_unbroken
  · exact ((unbroken_indent h level).append (h.unbroken (by decide))).append hline
  · rw [item, String.append_assoc]
    exact not_blanks_append (c := '-') (by simp) (by decide)

/-- Lines that are not blank, one behind the other, are the lines of their text. -/
theorem visibleLines_lines (h : LineEnds isEnd) {lines : List String}
    (hlines : ∀ line ∈ lines, visibleLines isEnd line = [line]) :
    visibleLines isEnd ("\n".intercalate lines) = lines := by
  rw [visibleLines_intercalate h]
  exact (List.flatMap_congr hlines).trans (List.flatMap_singleton' lines)

/-- The lines of a result inside with those of the results inside it. -/
def shownLines (markup : Markup) (level : Nat) (r : Result String) : List String :=
  r.nodeLines markup level ++ (r.inside (level + 1)).flatMap fun x => x.2.nodeLines markup x.1

theorem visibleLines_blocks (h : LineEnds isEnd) {input : String} {total : Float} {entries : List String}
    {parts : List (Result String)}
    (hparts : ∀ part ∈ parts, visibleLines isEnd (block markup level part) = part.shownLines markup level) :
    visibleLines isEnd ("\n".intercalate (blocks markup level parts)) =
      ((repeated input total entries parts).inside level).flatMap fun x => x.2.nodeLines markup x.1 := by
  rw [blocks_eq, visibleLines_intercalate h, inside_repeated, List.flatMap_map, List.flatMap_assoc]
  exact List.flatMap_congr fun part hpart => by rw [hparts part hpart, shownLines, List.flatMap_cons]

/-- A block has the lines of its repetition and of all repetitions inside. -/
theorem visibleLines_block (h : LineEnds isEnd)
    (hmarkup : ∀ text, Unbroken isEnd text → Unbroken isEnd (markup.emphasize text))
    (hr : ∀ i, ∀ node ∈ r.nodesAt i, Unbroken isEnd node.input ∧ ∀ line ∈ node.entries, Unbroken isEnd line) :
    visibleLines isEnd (block markup level r) = r.shownLines markup level := by
  induction r generalizing level with
  | leaf input total lines =>
    obtain ⟨hinput, hlines⟩ := hr 0 _ List.mem_cons_self
    have hitems : ∀ line ∈ lines.map (item level), visibleLines isEnd line = [line] := by
      intro line hline
      obtain ⟨line, hmem, rfl⟩ := List.mem_map.mp hline
      exact visibleLines_item h (hlines line hmem)
    rw [block, visibleLines_framed h (hmarkup input hinput), visibleLines_lines h hitems]
    exact (List.append_nil _).symm
  | repeated input total entries parts ih =>
    obtain ⟨hinput, -⟩ := hr 0 _ List.mem_cons_self
    rw [block, visibleLines_framed h (hmarkup input hinput), visibleLines_blocks h fun part hpart =>
      ih part hpart fun i node hnode => hr (i + 1) node (mem_nodesAt_of_part hpart hnode)]
    rfl

end Blocks

/-- On several lines everything is listed once, in order and set in by its level. Where neither queries, lines of
rolls nor emphasis end lines, and no line of a roll is blank, the lines of a body that are not blank are the rolls of
the result itself, and for all results inside, each in front of what is inside it, the header and the items of its
rolls. On each level these are the results so many repetitions below the whole. A reply on several lines and one that
folds have the same body. -/
theorem visibleLines_blockBody {isEnd : Char → Bool} (h : LineEnds isEnd) {markup : Markup} {r : Result String}
    (hmarkup : ∀ text, Unbroken isEnd text → Unbroken isEnd (markup.emphasize text))
    (hr : ∀ i, ∀ node ∈ r.nodesAt i,
      Unbroken isEnd node.input ∧ ∀ line ∈ node.entries, Unbroken isEnd line ∧ ¬Blanks line.toList) :
    visibleLines isEnd (r.blockBody markup) =
        r.shownEntries ++ (r.inside 0).flatMap (fun x => x.2.nodeLines markup x.1) ∧
      (∀ level, ((r.inside 0).filter fun x => x.1 == level).map Prod.snd = r.nodesAt (level + 1)) ∧
      r.reply markup .multiLine = "You rolled " ++ r.input ++ "\n\n" ++ r.blockBody markup ++ "\nTotal: " ++
        markup.emphasize r.totalText ∧
      r.reply markup .collapsible = markup.collapsible
        (markup.emphasize "Your rolls" ++ ": \n" ++ r.blockBody markup ++ "\nTotal: " ++ markup.emphasize r.totalText)
        ("You rolled " ++ r.input ++ ": " ++ r.totalText) := by
  refine ⟨?_, fun level => by rw [← filter_inside r 0 level, Nat.zero_add], reply_multiLine markup r,
    reply_collapsible markup r⟩
  cases r with
  | leaf input total lines =>
    have hlines : ∀ line ∈ lines, visibleLines isEnd line = [line] := fun line hline =>
      have hline := (hr 0 _ List.mem_cons_self).2 line hline
      visibleLines_of_unbroken hline.1 hline.2
    rw [blockBody, visibleLines_lines h hlines]
    exact (List.append_nil lines).symm
  | repeated input total entries parts =>
    refine visibleLines_blocks h fun part hpart => visibleLines_block h hmarkup fun i node hnode => ?_
    have hnode' := hr (i + 1) node (mem_nodesAt_of_part hpart hnode)
    exact ⟨hnode'.1, fun line hline => (hnode'.2 line hline).1⟩

/-- Repetitions within repetitions, among them one of no copies. -/
theorem visibleLines_blockBody_nested :
    visibleLines (· == '\n') (blockBody .stars (.repeated "2x2x1d4" 3 []
        [.repeated "2x1d4" 3 [] [.leaf "1d4" 1 ["1d4: 1 = 1"], .leaf "1d4" 2 ["1d4: 2 = 2"]],
          .repeated "0x1d4" 0 [] []])) =
      ["*2x1d4*:", "  *1d4*:", "  - 1d4: 1 = 1", "  *1d4*:", "  - 1d4: 2 = 2", "*0x1d4*:"] := by
  let r : Result String := .repeated "2x2x1d4" 3 []
    [.repeated "2x1d4" 3 [] [.leaf "1d4" 1 ["1d4: 1 = 1"], .leaf "1d4" 2 ["1d4: 2 = 2"]], .repeated "0x1d4" 0 [] []]
  have hends : LineEnds (· == '\n') := ⟨rfl, fun c hc => by rw [eq_of_beq hc]; rfl⟩
  have hmarkup : ∀ text, Unbroken (· == '\n') text → Unbroken (· == '\n') (Markup.stars.emphasize text) := by
    intro text htext
    exact ((hends.unbroken (by decide)).append htext).append (hends.unbroken (by decide))
  have hr : ∀ i, ∀ node ∈ r.nodesAt i, Unbroken (· == '\n') node.input ∧
      ∀ line ∈ node.entries, Unbroken (· == '\n') line ∧ ¬Blanks line.toList := by
    intro i
    rcases i with _ | _ | _ | i
    · decide
    · decide
    · decide
    · simp [nodesAt, parts?, r]
  exact (visibleLines_blockBody hends hmarkup hr).1

end Result

end Tabletop

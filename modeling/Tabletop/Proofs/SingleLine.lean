import Tabletop.Proofs.Lines
import Tabletop.Proofs.Messages
import Tabletop.Proofs.Replacing
import Tabletop.Proofs.Shape

/-!
Replies on one line. The rolls of a result stand on one line with bars between them, and each repetition stands in
angular quotes. Neither a bar nor a quote occurs within the line of a roll, so the line of a result can be read back:
a body ends with the text or where a quote closes that it has not opened. Main statement: two results with the same
body on one line have the same tree of lines, and the whole reply is one line if no line break is put into it.
-/

namespace Tabletop

open Arithmetic

/-- A line of a roll that can be told from what is around it: it is not empty, and has neither bars nor quotes. -/
structure Legible (line : String) : Prop where
  ne_empty : line ≠ ""
  not_mem : '|' ∉ line.toList ∧ '«' ∉ line.toList ∧ '»' ∉ line.toList

/-- The tree of the lines of a result: the lines themselves, or the trees of its repetitions, of which there is at
least one. Repetitions that are none are the same as no lines. -/
inductive LineTree where
  | rolls (lines : List String)
  | repetitions (first : LineTree) (others : List LineTree)

namespace LineTree

/-- The tree of several repetitions. -/
def ofParts : List LineTree → LineTree
  | [] => rolls []
  | t :: ts => repetitions t ts

mutual

/-- All lines, from left to right. -/
def lines : LineTree → List String
  | rolls ls => ls
  | repetitions first others => lines first ++ linesAll others

def linesAll : List LineTree → List String
  | [] => []
  | t :: ts => lines t ++ linesAll ts

end

/-- What stands between two rolls or two repetitions. -/
def bar : List Char := [' ', '|', ' ']

mutual

/-- The tree on one line. -/
def chars : LineTree → List Char
  | rolls ls => bar.intercalate (ls.map String.toList)
  | repetitions first others => '«' :: (chars first ++ '»' :: charsBehind others)

/-- Further repetitions, each behind a bar. -/
def charsBehind : List LineTree → List Char
  | [] => []
  | t :: ts => bar ++ '«' :: (chars t ++ '»' :: charsBehind ts)

end

theorem lines_ofParts (ts : List LineTree) : (ofParts ts).lines = linesAll ts := by
  cases ts <;> rfl

/-- A repetition in its quotes. -/
def quoted (t : LineTree) : List Char := '«' :: (t.chars ++ ['»'])

theorem chars_ofParts (ts : List LineTree) : (ofParts ts).chars = bar.intercalate (ts.map quoted) := by
  cases ts with
  | nil => rfl
  | cons t ts =>
    rw [ofParts, chars]
    induction ts generalizing t with
    | nil => simp [charsBehind, quoted]
    | cons u ts ih =>
      rw [List.map_cons, List.map_cons, List.intercalate_cons_of_ne_nil (List.cons_ne_nil _ _), ← List.map_cons, ← ih u]
      simp [charsBehind, quoted]

end LineTree

namespace Result

mutual

/-- The lines of a result as they are shown on one line. A repetition shows those of its parts, and has none of its
own. -/
def lineTree : Result String → LineTree
  | leaf _ _ lines => .rolls lines
  | repeated _ _ _ parts => .ofParts (lineTrees parts)

def lineTrees : List (Result String) → List LineTree
  | [] => []
  | r :: rs => lineTree r :: lineTrees rs

end

theorem lineTrees_eq (rs : List (Result String)) : lineTrees rs = rs.map lineTree := by
  induction rs with
  | nil => rfl
  | cons r rs ih => rw [lineTrees, ih, List.map_cons]

theorem lines_lineTree (r : Result String) : r.lineTree.lines = r.leafEntries := by
  induction r with
  | leaf => rfl
  | repeated input total entries parts ih =>
    rw [lineTree, LineTree.lines_ofParts, leafEntries_repeated]
    induction parts with
    | nil => rfl
    | cons part parts ih' =>
      rw [lineTrees, LineTree.linesAll, List.flatMap_cons, ih part List.mem_cons_self,
        ih' fun p hp => ih p (List.mem_cons_of_mem part hp)]

/-- The line of a result is that of its tree. -/
theorem toList_lineBody (r : Result String) : r.lineBody.toList = r.lineTree.chars := by
  induction r with
  | leaf input total lines =>
    rw [lineBody, String.toList_intercalate, lineTree, LineTree.chars]
    rfl
  | repeated input total entries parts ih =>
    have hquoted : (quotedBodies parts).map String.toList = (parts.map lineTree).map LineTree.quoted := by
      rw [quotedBodies_eq, List.map_map, List.map_map]
      refine List.map_congr_left fun part hpart => ?_
      simp [LineTree.quoted, ← ih part hpart]
    rw [lineBody, String.toList_intercalate, hquoted, lineTree, lineTrees_eq, LineTree.chars_ofParts]
    rfl

end Result

section Reading

/-- Where a body may end: with the text, or in front of a quote that closes. -/
def Closed (rest : List Char) : Prop := ∀ c ∈ rest.head?, c = '»'

variable {line : String} {lines lines' : List String} {rest rest' : List Char}

theorem mem_intercalate {c : Char} {sep : List Char} {texts : List (List Char)} (h : c ∈ sep.intercalate texts) :
    c ∈ sep ∨ ∃ text ∈ texts, c ∈ text := by
  induction texts with
  | nil => cases h
  | cons text texts ih =>
    cases texts with
    | nil => exact .inr ⟨text, List.mem_cons_self, by simpa using h⟩
    | cons next texts =>
      rw [List.intercalate_cons_of_ne_nil (List.cons_ne_nil _ _)] at h
      rcases List.mem_append.mp h with h | h
      · rcases List.mem_append.mp h with h | h
        · exact .inr ⟨text, List.mem_cons_self, h⟩
        · exact .inl h
      · exact (ih h).imp_right fun ⟨x, hx, hc⟩ => ⟨x, List.mem_cons_of_mem text hx, hc⟩

theorem mem_intercalate_strings {c : Char} {sep : String} (h : c ∈ (sep.intercalate lines).toList) :
    c ∈ sep.toList ∨ ∃ line ∈ lines, c ∈ line.toList := by
  rw [String.toList_intercalate] at h
  simpa using mem_intercalate h

namespace LineTree

/-- No quote is among the lines of rolls. -/
theorem not_mem_chars_rolls (h : ∀ line ∈ lines, Legible line) :
    '«' ∉ (rolls lines).chars ∧ '»' ∉ (rolls lines).chars := by
  have hmem : ∀ {c}, c ∈ (rolls lines).chars → c ∈ bar ∨ ∃ line ∈ lines, c ∈ line.toList := by
    intro c hc
    rw [chars] at hc
    simpa using mem_intercalate hc
  constructor
  · intro hc
    rcases hmem hc with hc | ⟨line, hline, hc⟩
    · exact absurd hc (by decide)
    · exact (h line hline).not_mem.2.1 hc
  · intro hc
    rcases hmem hc with hc | ⟨line, hline, hc⟩
    · exact absurd hc (by decide)
    · exact (h line hline).not_mem.2.2 hc

/-- Lines, each between a blank and a bar. -/
def enclosed (lines : List String) : List Char := lines.flatMap fun line => ' ' :: (line.toList ++ [' ', '|'])

theorem enclosed_cons (line : String) (lines : List String) :
    enclosed (line :: lines) = ' ' :: ((line.toList ++ [' ']) ++ '|' :: enclosed lines) := by
  simp [enclosed]

theorem intercalate_bar_cons (line : String) (lines : List String) :
    ' ' :: (bar.intercalate ((line :: lines).map String.toList) ++ [' ', '|']) = enclosed (line :: lines) := by
  induction lines generalizing line with
  | nil => simp [enclosed]
  | cons next lines ih =>
    rw [enclosed_cons, ← ih, List.map_cons, List.intercalate_cons_of_ne_nil (by simp)]
    simp [bar]

/-- A line ends in front of the first bar, but for a blank. -/
theorem enclosed_injective (h : ∀ line ∈ lines, '|' ∉ line.toList) (h' : ∀ line ∈ lines', '|' ∉ line.toList)
    (heq : enclosed lines = enclosed lines') : lines = lines' := by
  induction lines generalizing lines' with
  | nil =>
    cases lines' with
    | nil => rfl
    | cons line' lines' => cases heq
  | cons line lines ih =>
    cases lines' with
    | nil => cases heq
    | cons line' lines' =>
      have hfree : ∀ l : String, '|' ∉ l.toList → ∀ c ∈ l.toList ++ [' '], (c != '|') = true := by
        intro l hl c hc
        rw [bne_iff_ne]
        rintro rfl
        exact (List.mem_append.mp hc).elim hl (by decide)
      rw [enclosed_cons, enclosed_cons] at heq
      obtain ⟨hline, hrest⟩ := span_append_inj (List.cons.inj heq).2 (hfree line (h line List.mem_cons_self))
        (by simp) (hfree line' (h' line' List.mem_cons_self)) (by simp)
      rw [String.toList_inj.mp (List.append_cancel_right hline), ih (fun l hl => h l (List.mem_cons_of_mem line hl))
        (fun l hl => h' l (List.mem_cons_of_mem line' hl)) (List.cons.inj hrest).2]

theorem chars_rolls_injective (h : ∀ line ∈ lines, Legible line) (h' : ∀ line ∈ lines', Legible line)
    (heq : (rolls lines).chars = (rolls lines').chars) : lines = lines' := by
  have hbars : ∀ ls : List String, (∀ line ∈ ls, Legible line) → ∀ line ∈ ls, '|' ∉ line.toList :=
    fun ls hls line hline => (hls line hline).not_mem.1
  -- No lines are written as one empty line would be.
  have hempty : ∀ line ls, (∀ l ∈ line :: ls, Legible l) → [] ≠ bar.intercalate ((line :: ls).map String.toList) := by
    intro line ls hls hnil
    have hone := intercalate_bar_cons line ls
    rw [← hnil] at hone
    have hline : [""] = line :: ls := enclosed_injective (by simp) (hbars _ hls) hone
    exact (hls line List.mem_cons_self).ne_empty (List.cons.inj hline).1.symm
  rw [chars, chars] at heq
  cases lines with
  | nil =>
    cases lines' with
    | nil => rfl
    | cons line' lines' => exact absurd heq (hempty line' lines' h')
  | cons line lines =>
    cases lines' with
    | nil => exact absurd heq.symm (hempty line lines h)
    | cons line' lines' =>
      have henclosed := congrArg (fun cs => ' ' :: (cs ++ [' ', '|'])) heq
      simp only [intercalate_bar_cons] at henclosed
      exact enclosed_injective (hbars _ h) (hbars _ h') henclosed

/-- Rolls do not begin with a quote that opens. -/
theorem chars_rolls_ne (h : ∀ line ∈ lines, Legible line) (hrest : Closed rest) (others : List Char) :
    (rolls lines).chars ++ rest ≠ '«' :: others := by
  intro heq
  cases hcs : (rolls lines).chars with
  | nil =>
    rw [hcs, List.nil_append] at heq
    exact absurd (hrest '«' (by rw [heq]; rfl)) (by decide)
  | cons c cs =>
    rw [hcs] at heq
    obtain ⟨rfl, -⟩ := List.cons.inj heq
    exact (not_mem_chars_rolls h).1 (by rw [hcs]; exact List.mem_cons_self)

theorem closed_quote (cs : List Char) : Closed ('»' :: cs) := by
  rintro c ⟨⟩
  rfl

theorem not_closed_charsBehind (t : LineTree) (ts : List LineTree) : ¬Closed (charsBehind (t :: ts) ++ rest) :=
  fun h => absurd (h ' ' rfl) (by decide)

mutual

/-- A tree can be read off the beginning of a text, and ends where a quote closes that it has not opened. -/
theorem chars_append_inj : (t : LineTree) → {t' : LineTree} → {rest rest' : List Char} →
    (∀ line ∈ t.lines, Legible line) → (∀ line ∈ t'.lines, Legible line) → Closed rest → Closed rest' →
    t.chars ++ rest = t'.chars ++ rest' → t = t' ∧ rest = rest'
  | rolls lines, t', rest, rest', h, h', hrest, hrest', heq => by
    cases t' with
    | rolls lines' =>
      have hfree : ∀ ls : List String, (∀ line ∈ ls, Legible line) → ∀ c ∈ (rolls ls).chars, (c != '»') = true := by
        intro ls hls c hc
        rw [bne_iff_ne]
        rintro rfl
        exact (not_mem_chars_rolls hls).2 hc
      obtain ⟨hchars, hends⟩ := span_append_inj heq (hfree lines h) (fun c hc => by simp [hrest c hc])
        (hfree lines' h') (fun c hc => by simp [hrest' c hc])
      exact ⟨congrArg rolls (chars_rolls_injective h h' hchars), hends⟩
    | repetitions first' others' => exact absurd heq (chars_rolls_ne h hrest _)
  | repetitions first others, t', rest, rest', h, h', hrest, hrest', heq => by
    cases t' with
    | rolls lines' => exact absurd heq.symm (chars_rolls_ne h' hrest' _)
    | repetitions first' others' =>
      rw [lines, List.forall_mem_append] at h h'
      rw [chars, chars, List.cons_append, List.cons_append, List.append_assoc, List.append_assoc] at heq
      obtain ⟨rfl, hbehind⟩ := chars_append_inj first h.1 h'.1 (closed_quote _) (closed_quote _) (List.cons.inj heq).2
      obtain ⟨rfl, hends⟩ := charsBehind_append_inj others h.2 h'.2 hrest hrest' (List.cons.inj hbehind).2
      exact ⟨rfl, hends⟩

theorem charsBehind_append_inj : (ts : List LineTree) → {ts' : List LineTree} → {rest rest' : List Char} →
    (∀ line ∈ linesAll ts, Legible line) → (∀ line ∈ linesAll ts', Legible line) → Closed rest → Closed rest' →
    charsBehind ts ++ rest = charsBehind ts' ++ rest' → ts = ts' ∧ rest = rest'
  | [], ts', rest, rest', h, h', hrest, hrest', heq => by
    cases ts' with
    | nil => exact ⟨rfl, heq⟩
    | cons t' ts' =>
      rw [charsBehind, List.nil_append] at heq
      rw [heq] at hrest
      exact absurd hrest (not_closed_charsBehind t' ts')
  | t :: ts, ts', rest, rest', h, h', hrest, hrest', heq => by
    cases ts' with
    | nil =>
      rw [charsBehind.eq_def [], List.nil_append] at heq
      rw [← heq] at hrest'
      exact absurd hrest' (not_closed_charsBehind t ts)
    | cons t' ts' =>
      rw [linesAll, List.forall_mem_append] at h h'
      rw [charsBehind, charsBehind, List.append_assoc, List.append_assoc, List.cons_append, List.cons_append,
        List.append_assoc, List.append_assoc] at heq
      have hquote := (List.cons.inj (List.append_cancel_left heq)).2
      obtain ⟨rfl, hbehind⟩ := chars_append_inj t h.1 h'.1 (closed_quote _) (closed_quote _) hquote
      obtain ⟨rfl, hends⟩ := charsBehind_append_inj ts h.2 h'.2 hrest hrest' (List.cons.inj hbehind).2
      exact ⟨rfl, hends⟩

end

end LineTree

/-- Two results have the same line exactly if they have the same tree of lines. -/
theorem Result.lineBody_eq_iff {r r' : Result String} (h : ∀ line ∈ r.leafEntries, Legible line)
    (h' : ∀ line ∈ r'.leafEntries, Legible line) : r.lineBody = r'.lineBody ↔ r.lineTree = r'.lineTree := by
  rw [← lines_lineTree] at h h'
  rw [← String.toList_inj, toList_lineBody, toList_lineBody]
  constructor
  · intro heq
    have hnil : Closed [] := nofun
    exact (LineTree.chars_append_inj r.lineTree h h' hnil hnil (congrArg (· ++ []) heq)).1
  · rintro heq
    rw [heq]

end Reading

section Lines

variable {markup : Markup} {c : Char}

theorem Pool.mem_text {p : Pool} (h : c ∈ p.text.toList) : c.isDigit = true ∨ c = 'd' := by
  rw [text, String.toList_ofList, chars] at h
  rcases List.mem_append.mp h with h | h
  · exact .inl (isDigit_of_mem_toDigits h)
  · exact (List.mem_cons.mp h).symm.imp_left isDigit_of_mem_toDigits

/-- What the line of a roll consists of besides digits and markup. -/
def Roll.lineMarks : List Char := ['d', ':', ' ', '=', '[', ']', '-', '+']

theorem Roll.mem_faceText {mode : Scoring} {face : Nat} (h : c ∈ (faceText markup mode face).toList) :
    c.isDigit = true ∨ c ∈ lineMarks ∨ ∃ n, c ∈ (markup.emphasize (Nat.repr n)).toList := by
  have hnumber : ∀ text, text = markup.emphasize (Nat.repr face) ∨ text = Nat.repr face → c ∈ text.toList →
      c.isDigit = true ∨ ∃ n, c ∈ (markup.emphasize (Nat.repr n)).toList := by
    rintro text (rfl | rfl) hc
    · exact .inr ⟨face, hc⟩
    · exact .inl (isDigit_of_mem_toDigits (by rwa [Nat.toList_repr] at hc))
  cases mode with
  | fate =>
    have hsymbols : ∀ s : FateSymbol, s.text.toList ⊆ lineMarks := by
      intro s
      cases s <;> decide
    exact .inr (.inl (hsymbols _ h))
  | _ =>
    refine (hnumber _ ?_ h).imp_right .inr
    simp only [faceText]
    split
    · exact .inl rfl
    · exact .inr rfl

theorem Roll.mem_line {r : Roll} (h : c ∈ (r.line markup).toList) :
    c.isDigit = true ∨ c ∈ lineMarks ∨ ∃ n, c ∈ (markup.emphasize (Nat.repr n)).toList := by
  have hwords : ∀ words : String, words.toList ⊆ lineMarks → c ∈ words.toList →
      c.isDigit = true ∨ c ∈ lineMarks ∨ ∃ n, c ∈ (markup.emphasize (Nat.repr n)).toList :=
    fun words hwords hc => .inr (.inl (hwords hc))
  simp only [line, String.toList_append, List.mem_append] at h
  rcases h with (((hpool | hcolon) | hfaces) | hequals) | htotal
  · exact (Pool.mem_text hpool).imp_right fun hd => .inl (by simp [hd, lineMarks])
  · exact hwords ": " (by decide) hcolon
  · rcases mem_intercalate_strings hfaces with hblank | ⟨text, htext, hc⟩
    · exact hwords " " (by decide) hblank
    · obtain ⟨face, -, rfl⟩ := List.mem_map.mp htext
      exact mem_faceText hc
  · exact hwords " = " (by decide) hequals
  · rw [intText, String.toList_ofList] at htotal
    exact (Query.isDigit_or_of_mem_intChars htotal).imp_right fun hminus => .inl (by simp [hminus, lineMarks])

/-- Where emphasis puts stars around a number, or nothing, every roll has a line that can be told from others. -/
theorem Roll.legible_line (h : ∀ n, ∀ c ∈ (markup.emphasize (Nat.repr n)).toList, c.isDigit = true ∨ c = '*')
    (r : Roll) : Legible (r.line markup) := by
  have hmarks : ∀ c, c ∉ '*' :: lineMarks → c.isDigit = false → c ∉ (r.line markup).toList := by
    intro c hmark hdigit hc
    rw [List.mem_cons, not_or] at hmark
    rcases mem_line hc with hc | hc | ⟨n, hc⟩
    · rw [hdigit] at hc
      cases hc
    · exact hmark.2 hc
    · rcases h n c hc with hc | hc
      · rw [hdigit] at hc
        cases hc
      · exact hmark.1 hc
  refine ⟨?_, hmarks '|' (by decide) rfl, hmarks '«' (by decide) rfl, hmarks '»' (by decide) rfl⟩
  intro hempty
  have hcolon : ':' ∈ (r.line markup).toList := by simp [line]
  rw [hempty] at hcolon
  cases hcolon

theorem Markup.mem_emphasize (h : markup = .markdown ∨ markup = .plain ∨ markup = .stars) (n : Nat) :
    ∀ c ∈ (markup.emphasize (Nat.repr n)).toList, c.isDigit = true ∨ c = '*' := by
  have hdigits : ∀ c ∈ (Nat.repr n).toList, c.isDigit = true := fun c hc =>
    isDigit_of_mem_toDigits (by rwa [Nat.toList_repr] at hc)
  intro c hc
  rcases h with rfl | rfl | rfl <;>
    simp only [markdown, plain, stars, String.toList_append, List.mem_append] at hc <;> grind

end Lines

namespace Result

variable {α β : Type} {i : Nat}

theorem parts?_map (f : α → β) (r : Result α) : (r.map f).parts? = r.parts?.map (List.map (map f)) := by
  cases r with
  | leaf => rfl
  | repeated => exact congrArg some (mapAll_eq f _)

theorem nodesAt_map (f : α → β) (i : Nat) (r : Result α) : (r.map f).nodesAt i = (r.nodesAt i).map (map f) := by
  induction i generalizing r with
  | zero => rfl
  | succ i ih =>
    cases r with
    | leaf => rfl
    | repeated input total entries parts =>
      rw [map_repeated]
      simp only [nodesAt, parts?, Option.getD_some, List.flatMap_map, List.map_flatMap, ih]

end Result

namespace Text

/-- The characters at which a line ends. -/
def lineBreaks : List Char := ['\n', '\x0b', '\x0c', '\r', '\x85', '\u2028', '\u2029']

def isLineBreak (c : Char) : Bool := lineBreaks.contains c

end Text

section LineBreaks

variable {c : Char} {r : Result String}

/-- A written number is on one line. -/
theorem NumberStyle.not_mem_text_of_isLineBreak (hc : Text.isLineBreak c = true) (style : NumberStyle) (x : Float) :
    c ∉ (style.text x).toList := by
  have hbreaks : (Text.lineBreaks.all fun x => !x.isDigit && !marks.contains x) = true := by decide
  have hbreak := List.all_eq_true.mp hbreaks c (List.mem_of_elem_eq_true hc)
  rw [Bool.and_eq_true, Bool.not_eq_true', Bool.not_eq_true', List.contains_eq_mem, decide_eq_false_iff_not] at hbreak
  exact not_mem_text hbreak.1 hbreak.2 style x

/-- The line of a result consists of the lines of its rolls, bars and quotes. -/
theorem Result.mem_lineBody (h : c ∈ r.lineBody.toList) :
    c ∈ [' ', '|', '«', '»'] ∨ ∃ line ∈ r.leafEntries, c ∈ line.toList := by
  induction r with
  | leaf input total lines =>
    refine (mem_intercalate_strings h).imp_left fun hbar => ?_
    have hbars : " | ".toList ⊆ [' ', '|', '«', '»'] := by decide
    exact hbars hbar
  | repeated input total entries parts ih =>
    rw [lineBody, quotedBodies_eq] at h
    rw [leafEntries_repeated]
    rcases mem_intercalate_strings h with hbar | ⟨line, hline, hc⟩
    · have hbars : " | ".toList ⊆ [' ', '|', '«', '»'] := by decide
      exact .inl (hbars hbar)
    · obtain ⟨part, hpart, rfl⟩ := List.mem_map.mp hline
      have hquotes : "«".toList ⊆ [' ', '|', '«', '»'] ∧ "»".toList ⊆ [' ', '|', '«', '»'] := by decide
      rw [String.toList_append, String.toList_append, List.mem_append, List.mem_append] at hc
      rcases hc with (hc | hc) | hc
      · exact .inl (hquotes.1 hc)
      · refine (ih part hpart hc).imp_right fun ⟨line, hline, hc⟩ => ⟨line, ?_, hc⟩
        exact List.mem_flatMap.mpr ⟨part, hpart, hline⟩
      · exact .inl (hquotes.2 hc)

/-- A reply on one line has no line break but those of its query, of its rolls and of its markup. -/
theorem Result.not_mem_reply_singleLine (hc : Text.isLineBreak c = true) {markup : Markup}
    (hinput : c ∉ r.input.toList) (hlines : ∀ line ∈ r.leafEntries, c ∉ line.toList)
    (hemphasize : ∀ text : String, c ∉ text.toList → c ∉ (markup.emphasize text).toList) :
    c ∉ (r.reply markup .singleLine).toList := by
  have hwords : ∀ words : String, words.toList.all (!Text.isLineBreak ·) = true → c ∉ words.toList := by
    intro words hwords h
    have hnot := List.all_eq_true.mp hwords c h
    rw [hc] at hnot
    cases hnot
  have hbody : c ∉ r.lineBody.toList := by
    intro h
    rcases mem_lineBody h with hmark | ⟨line, hline, h⟩
    · exact hwords " |«»" (by decide) hmark
    · exact hlines line hline h
  have htotal : c ∉ (markup.emphasize r.totalText).toList :=
    hemphasize r.totalText (NumberStyle.not_mem_text_of_isLineBreak hc .plain r.total)
  rw [reply_singleLine]
  simp only [String.toList_append, List.mem_append, not_or]
  exact ⟨⟨⟨⟨⟨hwords _ (by decide), hinput⟩, hwords _ (by decide)⟩, hbody⟩, hwords _ (by decide)⟩, htotal⟩

end LineBreaks

theorem Query.Shaped.entries_eq_nil {levels : Nat} {cs : List Char} {node : Result Roll}
    (h : Shaped levels cs node) (hparts : node.parts? ≠ none) : node.entries = [] := by
  cases h with
  | leaf => exact absurd rfl hparts
  | cut => rfl
  | repeated => rfl

namespace Responder

variable {σ : Type} [DieSource σ] {responder : Responder} {query : String} {mode : Scoring} {tray tray' : Tray σ}
  {r : Result String}

/-- A result that is shown is one of rolls, each of which is shown as a line. -/
theorem exists_of_answer (h : responder.answer query mode tray = (.ok r, tray')) :
    ∃ result, Query.answer responder.evaluator query mode tray = (.ok result, tray') ∧
      r = result.map (Roll.line responder.markup) := by
  cases hanswer : Query.answer responder.evaluator query mode tray with
  | mk outcome after =>
    simp only [answer, hanswer] at h
    cases outcome with
    | error e => cases h
    | ok result =>
      cases h
      exact ⟨result, rfl, rfl⟩

/-- Single lines are unambiguous. Two results whose rolls have lines without bars and quotes, none of them empty, have
the same body on one line exactly if they have the same tree of lines. Such are all lines of a result that is shown
with stars around what is emphasised or without any markup, and none of its repetitions has lines of its own. And a
reply on one line has a line break only where its query, one of its rolls or its emphasis has one. -/
theorem lineBody_unambiguous :
    (∀ r r' : Result String, (∀ line ∈ r.leafEntries, Legible line) → (∀ line ∈ r'.leafEntries, Legible line) →
      (r.lineBody = r'.lineBody ↔ r.lineTree = r'.lineTree)) ∧
    (∀ {σ : Type} [DieSource σ] {responder : Responder} {query : String} {mode : Scoring} {tray tray' : Tray σ}
      {r : Result String},
      responder.markup = .markdown ∨ responder.markup = .plain ∨ responder.markup = .stars →
      responder.answer query mode tray = (.ok r, tray') → ∀ i, ∀ node ∈ r.nodesAt i,
        (∀ line ∈ node.entries, Legible line) ∧ (node.parts? ≠ none → node.entries = [])) ∧
    ∀ (markup : Markup) (r : Result String) (c : Char), Text.isLineBreak c = true → c ∉ r.input.toList →
      (∀ line ∈ r.leafEntries, c ∉ line.toList) →
      (∀ text : String, c ∉ text.toList → c ∉ (markup.emphasize text).toList) →
        c ∉ (r.reply markup .singleLine).toList := by
  refine ⟨fun r r' h h' => Result.lineBody_eq_iff h h', ?_, fun markup r c hc hinput hlines hemphasize =>
    Result.not_mem_reply_singleLine hc hinput hlines hemphasize⟩
  intro σ _ responder query mode tray tray' r hmarkup h i node hnode
  obtain ⟨result, hresult, rfl⟩ := exists_of_answer h
  rw [Result.nodesAt_map] at hnode
  obtain ⟨node', hnode', rfl⟩ := List.mem_map.mp hnode
  rw [Result.entries_map]
  constructor
  · intro line hline
    obtain ⟨roll, -, rfl⟩ := List.mem_map.mp hline
    exact Roll.legible_line (Markup.mem_emphasize hmarkup) roll
  · intro hparts
    rw [Result.parts?_map, ne_eq, Option.map_eq_none_iff] at hparts
    obtain ⟨-, -, hshaped⟩ := (Query.shaped_of_answerWithin hresult).of_mem_nodesAt hnode'
    rw [hshaped.entries_eq_nil hparts, List.map_nil]

/-- The two lines of a reply can be read off it, whatever result it is taken for. -/
theorem lineBody_unambiguous_two_copies :
    ∃ r after, Responder.answer ⟨.stars, ⟨false, false⟩, Arithmetic.evaluate⟩ "2x1d10" .whiteWolf
        (.ofDice (Script.ofList [8, 3])) = (.ok r, after) ∧
      r.lineBody = "«1d10: *8* = 1» | «1d10: 3 = 0»" ∧ '\n' ∉ (r.reply .stars .singleLine).toList ∧
      (∀ node ∈ r.nodesAt 1, ∀ line ∈ node.entries, Legible line) ∧
      ∀ r' : Result String, (∀ line ∈ r'.leafEntries, Legible line) →
        r'.lineBody = "«1d10: *8* = 1» | «1d10: 3 = 0»" → r'.leafEntries = ["1d10: *8* = 1", "1d10: 3 = 0"] := by
  let responder : Responder := ⟨.stars, ⟨false, false⟩, Arithmetic.evaluate⟩
  let tray := Tray.ofDice (Script.ofList [8, 3])
  have hshown : ((responder.answer "2x1d10" .whiteWolf tray).1.toOption.map
      fun r => (r.input, r.lineBody, r.leafEntries)) =
        some ("2x1d10", "«1d10: *8* = 1» | «1d10: 3 = 0»", ["1d10: *8* = 1", "1d10: 3 = 0"]) := by
    decide +kernel
  obtain ⟨r, after, h, hr⟩ := Query.exists_of_map_toOption hshown
  obtain ⟨hinput, hbody, hlines⟩ : r.input = _ ∧ r.lineBody = _ ∧ r.leafEntries = _ := by
    simpa only [Prod.mk.injEq] using hr
  obtain ⟨hbodies, hanswers, hbreaks⟩ := lineBody_unambiguous
  have hlegible : ∀ line ∈ r.leafEntries, Legible line := by
    rw [hlines]
    have hdecided : ∀ line ∈ ["1d10: *8* = 1", "1d10: 3 = 0"],
        line ≠ "" ∧ '|' ∉ line.toList ∧ '«' ∉ line.toList ∧ '»' ∉ line.toList := by decide
    exact fun line hline => ⟨(hdecided line hline).1, (hdecided line hline).2⟩
  refine ⟨r, after, h, hbody, ?_, fun node hnode => (hanswers (.inr (.inr rfl)) h 1 node hnode).1, ?_⟩
  · refine hbreaks .stars r '\n' rfl (by rw [hinput]; decide) (by rw [hlines]; decide) ?_
    intro text htext
    simp [Markup.stars, htext]
  · intro r' hlegible' hbody'
    rw [← hbody] at hbody'
    have htree := (hbodies r' r hlegible' hlegible).mp hbody'
    rw [← Result.lines_lineTree, htree, Result.lines_lineTree, hlines]

end Responder

end Tabletop

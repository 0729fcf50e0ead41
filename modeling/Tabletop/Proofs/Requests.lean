import Tabletop.CommandLine.Arguments
import Tabletop.CommandLine.Session
import Tabletop.Proofs.Trimming

/-!
Requests, on a line and among the arguments. Main statements: a line that is not blank is read as its first word
and the rest of it without the blanks at its ends; and arguments behind a lone `--` are words, whatever they are,
while the options before it are read as they would be without them.
-/

namespace Tabletop.CommandLine

open Text Arithmetic

/-- A line that consists of a word and a query, with blanks around them and between them. -/
structure Reads (line : List Char) (name query : String) : Prop where
  name_ne_nil : name.toList ≠ []
  visible : ∀ c ∈ name.toList, isBlank c = false
  trimmed : Trimmed query.toList
  layout : ∃ lead gap trail, line = lead ++ (name.toList ++ (gap ++ query.toList)) ++ trail ∧
    Blanks lead ∧ Blanks gap ∧ Blanks trail ∧ (gap = [] → query.toList = [])

section Lines

variable {line : List Char} {name query : String}

theorem lineRequest?_of_trim (h : trim line ≠ []) : lineRequest? line =
    some (String.ofList (splitWord (trim line)).1, String.ofList (trim (splitWord (trim line)).2)) := by
  unfold lineRequest?
  split
  · next hnil => exact absurd hnil h
  · rfl

theorem lineRequest?_eq_none_iff : lineRequest? line = none ↔ Blanks line := by
  constructor
  · intro h
    have htrim : trim line = [] := by
      by_contra hne
      rw [lineRequest?_of_trim hne] at h
      cases h
    obtain ⟨lead, trail, hline, hlead, htrail⟩ := eq_append_trim line
    rw [htrim, List.append_nil] at hline
    rw [hline]
    intro c hc
    exact (List.mem_append.mp hc).elim (hlead c) (htrail c)
  · intro h
    rw [lineRequest?, trim, trimLeft_eq_nil_iff.mpr h, trimRight_nil]

theorem splitWord_of_visible {word : List Char} (hword : ∀ c ∈ word, isBlank c = false) :
    splitWord word = (word, []) := by
  have hvisible : ∀ c ∈ word, (!isBlank c) = true := fun c hc => by rw [hword c hc]; rfl
  have hspan := span_append [] hvisible nofun
  rw [List.append_nil] at hspan
  rw [splitWord, hspan.1, hspan.2, List.drop_nil]

theorem splitWord_append {word : List Char} {b : Char} (hword : ∀ c ∈ word, isBlank c = false)
    (hb : isBlank b = true) (rest : List Char) : splitWord (word ++ b :: rest) = (word, rest) := by
  have hvisible : ∀ c ∈ word, (!isBlank c) = true := fun c hc => by rw [hword c hc]; rfl
  have hbehind : ∀ c ∈ (b :: rest).head?, (!isBlank c) = false := by simp [hb]
  have hspan := span_append (b :: rest) hvisible hbehind
  rw [splitWord, hspan.1, hspan.2, List.drop_one, List.tail_cons]

theorem visible_or_exists_blank (cs : List Char) : (∀ c ∈ cs, isBlank c = false) ∨
    ∃ word b rest, cs = word ++ b :: rest ∧ (∀ c ∈ word, isBlank c = false) ∧ isBlank b = true := by
  induction cs with
  | nil => exact .inl (List.forall_mem_nil _)
  | cons c cs ih =>
    cases hc : isBlank c with
    | true => exact .inr ⟨[], c, cs, rfl, List.forall_mem_nil _, hc⟩
    | false =>
      rcases ih with hall | ⟨word, b, rest, rfl, hword, hb⟩
      · exact .inl (List.forall_mem_cons.mpr ⟨hc, hall⟩)
      · exact .inr ⟨c :: word, b, rest, rfl, List.forall_mem_cons.mpr ⟨hc, hword⟩, hb⟩

theorem reads_of_lineRequest? (h : lineRequest? line = some (name, query)) : Reads line name query := by
  have htrim : trim line ≠ [] := by
    intro hnil
    rw [lineRequest?, hnil] at h
    cases h
  rw [lineRequest?_of_trim htrim, Option.some.injEq, Prod.mk.injEq, ← String.toList_inj, ← String.toList_inj,
    String.toList_ofList, String.toList_ofList] at h
  obtain ⟨hname, hquery⟩ := h
  obtain ⟨lead, trail, hline, hlead, htrail⟩ := eq_append_trim line
  have hfirst := (trimmed_trim line).first
  rcases visible_or_exists_blank (trim line) with hall | ⟨word, b, rest, hcore, hword, hb⟩
  · rw [splitWord_of_visible hall] at hname hquery
    refine ⟨hname ▸ htrim, hname ▸ hall, hquery ▸ trimmed_trim [], lead, [], trail, ?_, hlead, blanks_nil,
      htrail, fun _ => hquery.symm⟩
    rw [← hname, ← hquery, trim_nil, List.append_nil, List.append_nil]
    exact hline
  · obtain ⟨lead', trail', hrest, hlead', htrail'⟩ := eq_append_trim rest
    rw [hcore, splitWord_append hword hb] at hname hquery
    have hne : word ≠ [] := by
      rintro rfl
      rw [hcore] at hfirst
      rw [hfirst b rfl] at hb
      cases hb
    refine ⟨hname ▸ hne, hname ▸ hword, hquery ▸ trimmed_trim rest, lead, b :: lead', trail' ++ trail, ?_,
      hlead, List.forall_mem_cons.mpr ⟨hb, hlead'⟩, ?_, nofun⟩
    · calc line
        _ = lead ++ (word ++ b :: (lead' ++ trim rest ++ trail')) ++ trail := by rw [← hrest, ← hcore, ← hline]
        _ = lead ++ (name.toList ++ (b :: lead' ++ query.toList)) ++ (trail' ++ trail) := by
          rw [← hname, ← hquery]
          simp only [List.append_assoc, List.cons_append]
    · intro c hc
      exact (List.mem_append.mp hc).elim (htrail' c) (htrail c)

theorem trimmed_of_visible {word : List Char} (hword : ∀ c ∈ word, isBlank c = false) : Trimmed word :=
  ⟨fun c hc => hword c (List.mem_of_mem_head? hc), fun c hc => hword c (List.mem_of_mem_getLast? hc)⟩

theorem Reads.lineRequest?_eq (h : Reads line name query) : lineRequest? line = some (name, query) := by
  obtain ⟨hname, hvisible, htrimmed, lead, gap, trail, rfl, hlead, hgap, htrail, hempty⟩ := h
  by_cases hquery : query.toList = []
  · have hrest : Blanks (gap ++ trail) := fun c hc => (List.mem_append.mp hc).elim (hgap c) (htrail c)
    have hcore : trim (lead ++ (name.toList ++ (gap ++ query.toList)) ++ trail) = name.toList := by
      have htrim := trim_append hlead (trimmed_of_visible hvisible) hrest
      simpa [hquery] using htrim
    rw [lineRequest?_of_trim (by rwa [hcore]), hcore, splitWord_of_visible hvisible, trim_nil,
      String.ofList_toList, ← hquery, String.ofList_toList]
  · obtain ⟨b, gap, rfl⟩ := List.exists_cons_of_ne_nil fun hnil => hquery (hempty hnil)
    obtain ⟨hb, hgap⟩ := List.forall_mem_cons.mp hgap
    have hends : Trimmed (name.toList ++ (b :: gap ++ query.toList)) := by
      constructor
      · obtain ⟨c, cs, hcs⟩ := List.exists_cons_of_ne_nil hname
        rw [hcs] at hvisible ⊢
        rintro _ ⟨⟩
        exact hvisible c List.mem_cons_self
      · rw [← List.append_assoc, List.getLast?_append_of_ne_nil _ hquery]
        exact htrimmed.last
    have hcore := trim_append hlead hends htrail
    have hrest : trim (gap ++ query.toList) = query.toList := by
      simpa using trim_append hgap htrimmed blanks_nil
    rw [lineRequest?_of_trim (by rw [hcore]; exact List.append_ne_nil_of_left_ne_nil hname _), hcore,
      List.cons_append, splitWord_append hvisible hb, hrest, String.ofList_toList, String.ofList_toList]

theorem lineRequest?_eq_some_iff : lineRequest? line = some (name, query) ↔ Reads line name query :=
  ⟨reads_of_lineRequest?, Reads.lineRequest?_eq⟩

end Lines

section Arguments

theorem ofLong_ne_separator (cs : List Char) : Argument.ofLong cs ≠ .ok .separator := by
  unfold Argument.ofLong
  dsimp only
  split
  · nofun
  · split
    · next argument hargument _ =>
      rintro ⟨⟩
      split at hargument
      · cases hargument
      · obtain ⟨flag, -, hflag⟩ := Option.map_eq_some_iff.mp hargument
        cases hflag
    · nofun
    · nofun

theorem eq_separator_of_ofText {text : String} (h : Argument.ofText text = .ok .separator) : text = "--" := by
  unfold Argument.ofText at h
  split at h
  · next htext => exact String.toList_inj.mp htext
  · exact absurd h (ofLong_ne_separator _)
  all_goals cases h

/-- Behind a lone `--` there are words only. -/
theorem ofArgumentsFrom_append {invocation invocation' : Invocation} {options : List String} (words : List String)
    (h : Request.ofArgumentsFrom invocation options = .ok (.run invocation')) (hoptions : "--" ∉ options) :
    Request.ofArgumentsFrom invocation (options ++ "--" :: words) =
      .ok (.run { invocation' with words := invocation'.words ++ words }) := by
  induction invocation, options using Request.ofArgumentsFrom.induct with
  | case1 invocation =>
    cases h
    rfl
  | case4 invocation text rest htext =>
    rw [eq_separator_of_ofText htext] at hoptions
    exact absurd List.mem_cons_self hoptions
  | case3 invocation text rest word htext ih =>
    rw [Request.ofArgumentsFrom.eq_def] at h ⊢
    simp only [List.cons_append, htext] at h ⊢
    exact ih h (List.not_mem_of_not_mem_cons hoptions)
  | case7 invocation text rest flag htext invocation₁ hflag ih =>
    rw [Request.ofArgumentsFrom.eq_def] at h ⊢
    simp only [List.cons_append, htext, hflag] at h ⊢
    exact ih h (List.not_mem_of_not_mem_cons hoptions)
  | case9 invocation text rest path htext invocation₁ hconfig ih =>
    rw [Request.ofArgumentsFrom.eq_def] at h ⊢
    simp only [List.cons_append, htext, hconfig] at h ⊢
    exact ih h (List.not_mem_of_not_mem_cons hoptions)
  | case13 invocation text htext path rest hoption invocation₁ hconfig ih =>
    rw [Request.ofArgumentsFrom.eq_def] at h ⊢
    simp only [List.cons_append, htext, hoption, Bool.false_eq_true, if_false, hconfig] at h ⊢
    exact ih h (List.not_mem_of_not_mem_cons (List.not_mem_of_not_mem_cons hoptions))
  -- All other arguments end the reading without a run.
  | _ =>
    rw [Request.ofArgumentsFrom.eq_def] at h
    simp_all

/-- A word and a query behind `--` are those of the command line's one command. -/
theorem ofArguments_append {invocation : Invocation} {options : List String} (words : List String)
    (h : Request.ofArguments options = .ok (.run invocation)) (hwords : invocation.words = [])
    (hoptions : "--" ∉ options) :
    Request.ofArguments (options ++ "--" :: words) = .ok (.run { invocation with words }) := by
  rw [Request.ofArguments, ofArgumentsFrom_append words h hoptions, hwords, List.nil_append]

end Arguments

end Tabletop.CommandLine

import Tabletop.Proofs.Spelling
import Mathlib.Data.List.TakeWhile

/-!
Texts without blanks at their ends. Main statement: trimming takes blanks off both ends until what is left neither
begins nor ends with one, and a text can be divided in this way into no other core.
-/

namespace Tabletop.Text

open Arithmetic

/-- Neither the first nor the last character is blank. -/
structure Trimmed (cs : List Char) : Prop where
  first : ∀ c ∈ cs.head?, isBlank c = false
  last : ∀ c ∈ cs.getLast?, isBlank c = false

variable {cs lead trail : List Char}

theorem trimLeft_append (hlead : Blanks lead) (hcs : ∀ c ∈ cs.head?, isBlank c = false) :
    trimLeft (lead ++ cs) = cs :=
  (span_append cs hlead hcs).2

theorem trimRight_append (htrail : Blanks trail) (hcs : ∀ c ∈ cs.getLast?, isBlank c = false) :
    trimRight (cs ++ trail) = cs := by
  rw [trimRight, List.reverse_append, (span_append cs.reverse ?_ ?_).2, List.reverse_reverse]
  · exact fun c hc => htrail c (List.mem_reverse.mp hc)
  · rwa [List.head?_reverse]

theorem trimLeft_eq_nil_iff : trimLeft cs = [] ↔ Blanks cs := List.dropWhile_eq_nil_iff

/-- What the trimming leaves of a text with blanks around a core. -/
theorem trim_append (hlead : Blanks lead) (hcs : Trimmed cs) (htrail : Blanks trail) :
    trim (lead ++ cs ++ trail) = cs := by
  rw [trim, List.append_assoc]
  cases cs with
  | nil =>
    have hblanks : Blanks (lead ++ ([] ++ trail)) := by
      intro c hc
      exact (List.mem_append.mp hc).elim (hlead c) (htrail c)
    rw [trimLeft_eq_nil_iff.mpr hblanks, trimRight_nil]
  | cons c cs =>
    have hfirst : ∀ x ∈ (c :: cs ++ trail).head?, isBlank x = false := hcs.first
    rw [trimLeft_append hlead hfirst, trimRight_append htrail hcs.last]

theorem trim_of_trimmed (hcs : Trimmed cs) : trim cs = cs := by
  simpa using trim_append blanks_nil hcs blanks_nil

theorem trimLeft_eq_append_trim (cs : List Char) :
    ∃ trail, trimLeft cs = trim cs ++ trail ∧ Blanks trail := by
  refine ⟨((trimLeft cs).reverse.takeWhile isBlank).reverse, ?_, ?_⟩
  · rw [trim, trimRight, ← List.reverse_append, List.takeWhile_append_dropWhile, List.reverse_reverse]
  · exact fun c hc => List.all_eq_true.mp List.all_takeWhile c (List.mem_reverse.mp hc)

/-- Only blanks are taken off. -/
theorem eq_append_trim (cs : List Char) :
    ∃ lead trail, cs = lead ++ trim cs ++ trail ∧ Blanks lead ∧ Blanks trail := by
  obtain ⟨trail, htrim, htrail⟩ := trimLeft_eq_append_trim cs
  refine ⟨cs.takeWhile isBlank, trail, ?_, fun c hc => List.all_eq_true.mp List.all_takeWhile c hc, htrail⟩
  rw [List.append_assoc, ← htrim, trimLeft, List.takeWhile_append_dropWhile]

theorem trimmed_trim (cs : List Char) : Trimmed (trim cs) where
  first := by
    obtain ⟨trail, htrim, -⟩ := trimLeft_eq_append_trim cs
    intro c hc
    have hfirst : c ∈ (trimLeft cs).head? := by
      rw [htrim, List.head?_append, Option.mem_def.mp hc]
      rfl
    exact head?_dropWhile_eq_false c hfirst
  last := by
    rw [trim, trimRight, List.getLast?_reverse]
    exact head?_dropWhile_eq_false

theorem trim_eq_iff {core : List Char} : trim cs = core ↔
    Trimmed core ∧ ∃ lead trail, cs = lead ++ core ++ trail ∧ Blanks lead ∧ Blanks trail := by
  constructor
  · rintro rfl
    exact ⟨trimmed_trim cs, eq_append_trim cs⟩
  · rintro ⟨hcore, lead, trail, rfl, hlead, htrail⟩
    exact trim_append hlead hcore htrail

end Tabletop.Text

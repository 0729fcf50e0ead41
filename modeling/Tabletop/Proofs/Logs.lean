import Tabletop.CommandLine.Run
import Tabletop.Proofs.Messages

/-!
The error output and the log. A run tells of its own faults on the error output, and what is logged comes between.
Main statements: a log that stays silent leaves the outcome that a run would have without one; and a log that writes
whole lines leaves the lines that tell of faults, as long as none of its own looks like one of these.
-/

namespace Tabletop.CommandLine

/-- The lines that tell of faults. -/
def faultText (messages : List String) : String :=
  String.join (messages.map fun message => "error: " ++ message ++ "\n")

/-- The lines of a text that look like those that tell of faults. -/
def faultLines (text : String) : List String :=
  ((text.toList.splitOnP (· == '\n')).filter ("error: ".toList.isPrefixOf ·)).map String.ofList

/-- Lines with their ends. -/
def IsWhole (text : String) : Prop := text = "" ∨ ∃ front, text = front ++ "\n"

/-- Whole lines, none of which looks like those that tell of faults. -/
def IsAside (text : String) : Prop := IsWhole text ∧ faultLines text = []

theorem faultLines_newline (front back : String) :
    faultLines (front ++ "\n" ++ back) = faultLines front ++ faultLines back := by
  have htext : (front ++ "\n" ++ back).toList = front.toList ++ '\n' :: back.toList := by simp
  have hsplit : (front.toList ++ '\n' :: back.toList).splitOnP (· == '\n') =
      front.toList.splitOnP (· == '\n') ++ back.toList.splitOnP (· == '\n') :=
    List.splitOnP_append_cons _ _ (by decide)
  simp only [faultLines, htext, hsplit, List.filter_append, List.map_append]

theorem faultLines_append {text : String} (h : IsWhole text) (back : String) :
    faultLines (text ++ back) = faultLines text ++ faultLines back := by
  rcases h with rfl | ⟨front, rfl⟩
  · rw [String.empty_append]
    rfl
  · have hend := faultLines_newline front ""
    rw [String.append_empty] at hend
    rw [faultLines_newline, hend]
    exact congrArg (· ++ faultLines back) (List.append_nil _).symm

theorem faultLines_faultText {messages : List String} (h : ∀ message ∈ messages, IsLine message) :
    faultLines (faultText messages) = messages.map ("error: " ++ ·) := by
  induction messages with
  | nil => rfl
  | cons message messages ih =>
    obtain ⟨hmessage, hrest⟩ := List.forall_mem_cons.mp h
    have hwhole : IsLine ("error: " ++ message) := hmessage.after (by decide)
    have hunbroken : ∀ c ∈ ("error: " ++ message).toList, (c == '\n') = false := by
      intro c hc
      rw [beq_eq_false_iff_ne]
      rintro rfl
      exact hwhole hc
    have hopening : "error: ".toList.isPrefixOf ("error: " ++ message).toList = true := by
      rw [String.toList_append, List.isPrefixOf_iff_prefix]
      exact List.prefix_append _ _
    have hline : faultLines ("error: " ++ message) = ["error: " ++ message] := by
      rw [faultLines, List.splitOnP_eq_singleton hunbroken, List.filter_cons_of_pos hopening, List.filter_nil,
        List.map_cons, List.map_nil, String.ofList_toList]
    rw [faultText, List.map_cons, String.join_cons, faultLines_newline, hline, ← faultText, ih hrest, List.map_cons,
      List.singleton_append]

variable {σ : Type}

/-- A log that writes nothing, whatever happens. -/
def Silent (log : (earlier : Nat) → Event σ → String) : Prop := ∀ earlier event, log earlier event = ""

namespace Note

/-- What a note adds to the error output if nothing is logged. -/
def ownText : Note σ → String
  | text t => t
  | event _ => ""

end Note

namespace Report

variable {report : Report σ}

theorem unlogged_eq (report : Report σ) :
    report.unlogged = ⟨report.exit, report.stdout, String.join (report.notes.map Note.ownText)⟩ := by
  have hnote : noteText (fun _ _ => "") = Note.ownText ∘ @Prod.fst (Note σ) Nat := by
    funext ⟨note, earlier⟩
    cases note <;> rfl
  rw [unlogged, outcome, hnote, ← List.map_map, List.zipIdx_map_fst]

theorem outcome_of_silent (h : Silent report.log) : report.outcome = report.unlogged := by
  have hlog : report.log = fun _ _ => "" := by
    funext earlier event
    exact h earlier event
  rw [unlogged, ← hlog]

theorem faultLines_noteTexts {log : Nat → Event σ → String} {notes : List (Note σ)}
    (hown : ∀ note ∈ notes, IsWhole note.ownText)
    (hlog : ∀ earlier event, .event event ∈ notes → IsAside (log earlier event)) (earlier : Nat) :
    faultLines (String.join ((notes.zipIdx earlier).map (noteText log))) =
      faultLines (String.join (notes.map Note.ownText)) := by
  induction notes generalizing earlier with
  | nil => rfl
  | cons note notes ih =>
    obtain ⟨hnote, hown⟩ := List.forall_mem_cons.mp hown
    have hrest := ih hown (fun earlier event h => hlog earlier event (List.mem_cons_of_mem note h)) (earlier + 1)
    rw [List.zipIdx_cons, List.map_cons, List.map_cons, String.join_cons, String.join_cons,
      faultLines_append hnote, ← hrest]
    cases note with
    | text text => exact faultLines_append hnote _
    | event event =>
      obtain ⟨hwhole, hnone⟩ := hlog earlier event List.mem_cons_self
      rw [noteText, faultLines_append hwhole, hnone]
      rfl

/-- Whole lines of a log leave the lines of faults as they are. -/
theorem faultLines_stderr (hown : ∀ note ∈ report.notes, IsWhole note.ownText)
    (hlog : ∀ earlier event, .event event ∈ report.notes → IsAside (report.log earlier event)) :
    faultLines report.outcome.stderr = faultLines report.unlogged.stderr := by
  rw [unlogged_eq]
  exact faultLines_noteTexts hown hlog 0

end Report

/-- A run but for what is logged. -/
def Toolkit.runUnlogged [DieSource σ] (toolkit : Toolkit σ) (arguments : List String) (around : Surroundings)
    (tray : Tray σ) : Outcome :=
  (toolkit.report arguments around tray).unlogged

end Tabletop.CommandLine

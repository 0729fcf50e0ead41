import Tabletop.Proofs.Commands
import Tabletop.Proofs.Logs
import Tabletop.Proofs.OneSided
import Tabletop.Proofs.Requests

/-!
Sessions. Without a command the program takes its commands from the lines of the standard input, and each line is
answered as a run of the program for that command alone would answer it: what such runs print follows one another
on the standard output, and for each that fails there is a line on the error output. Lines of a log may stand between
these lines. Main statement: with dice of one side, whose faces are known beforehand, a session writes no more and no
less than that, and does not fail.
-/

namespace Tabletop

namespace CommandLine

open Arithmetic Query

variable {σ : Type}

/-- `FirstLine text line`: the text is the line, or goes on behind it on further lines. -/
def FirstLine (text line : String) : Prop :=
  IsLine line ∧ (text = line ∨ ∃ rest, text = line ++ "\n" ++ rest)

/-- What the runs of one toolkit have in common. -/
structure Toolkit.Lawful (toolkit : Toolkit σ) : Prop where
  /-- Behind a lone `--` there are words only, and what is before it is read as it is by itself. -/
  readArguments_append : ∀ options words invocation, toolkit.readArguments options = .ok invocation →
    invocation.words = [] → "--" ∉ options →
      toolkit.readArguments (options ++ "--" :: words) = .ok { invocation with words }
  /-- What is told of an error begins with its message, and the causes come behind it. -/
  firstLine_complaint : ∀ message causes, IsLine message → FirstLine (toolkit.complaint message causes) message

/-- What a session writes on its standard output, and the faults that it tells of, if the command on each of its
lines has its own run. -/
inductive Transcript (shot : (name query : String) → Outcome → Prop) :
    (lines : List (List Char)) → (out : String) → (messages : List String) → Prop
  | finish : Transcript shot [] "" []
  | blank {line : List Char} {lines : List (List Char)} {out : String} {messages : List String} :
      Blanks line → Transcript shot lines out messages → Transcript shot (line :: lines) out messages
  | reply {line : List Char} {lines : List (List Char)} {name query text out : String} {messages : List String} :
      Reads line name query → shot name query (.success text) → Transcript shot lines out messages →
        Transcript shot (line :: lines) (text ++ out) messages
  | fault {line : List Char} {lines : List (List Char)} {name query told message out : String}
      {messages : List String} :
      Reads line name query → shot name query (.failure told) → FirstLine told message →
        Transcript shot lines out messages → Transcript shot (line :: lines) out (message :: messages)

theorem Transcript.isLine {shot : (name query : String) → Outcome → Prop} {lines : List (List Char)} {out : String}
    {messages : List String} (h : Transcript shot lines out messages) : ∀ message ∈ messages, IsLine message := by
  induction h with
  | finish => exact List.forall_mem_nil _
  | blank _ _ ih => exact ih
  | reply _ _ _ ih => exact ih
  | fault _ _ hfirst _ ih => exact List.forall_mem_cons.mpr ⟨hfirst.1, ih⟩

theorem Transcript.imp {shot shot' : (name query : String) → Outcome → Prop} {lines : List (List Char)}
    {out : String} {messages : List String} (h : Transcript shot lines out messages)
    (himp : ∀ name query outcome, shot name query outcome → shot' name query outcome) :
    Transcript shot' lines out messages := by
  induction h with
  | finish => exact .finish
  | blank hblank _ ih => exact .blank hblank ih
  | reply hreads hshot _ ih => exact .reply hreads (himp _ _ _ hshot) ih
  | fault hreads hshot hfirst _ ih => exact .fault hreads (himp _ _ _ hshot) hfirst ih

namespace Exchange

variable {json : Bool}

/-- The message of an exchange that has failed. -/
def message? (exchange : Exchange σ) : Option String :=
  match exchange.outcome with
  | .ok _ => none
  | .error e => some e.message

theorem isWhole_ownText (exchange : Exchange σ) : ∀ note ∈ exchange.notes json, IsWhole note.ownText := by
  unfold notes
  cases exchange.outcome with
  | ok reply => exact List.forall_mem_singleton.mpr (.inl rfl)
  | error e =>
    simp only [List.forall_mem_cons]
    exact ⟨.inl rfl, .inl rfl, .inr ⟨_, rfl⟩, List.forall_mem_nil _⟩

theorem join_ownText (exchanges : List (Exchange σ)) :
    String.join ((exchanges.flatMap (notes json)).map Note.ownText) = faultText (exchanges.filterMap message?) := by
  induction exchanges with
  | nil => rfl
  | cons exchange exchanges ih =>
    rw [List.flatMap_cons, List.map_append, String.join_append, ih]
    cases houtcome : exchange.outcome with
    | ok reply =>
      have hmessage : exchange.message? = none := by rw [message?, houtcome]
      rw [List.filterMap_cons_none hmessage, notes, houtcome]
      simp [Note.ownText]
    | error e =>
      have hmessage : exchange.message? = some e.message := by rw [message?, houtcome]
      rw [List.filterMap_cons_some hmessage, notes, houtcome]
      simp [Note.ownText, faultText]

end Exchange

namespace Report

variable {json : Bool} {log : Nat → Event σ → String} {exchanges : List (Exchange σ)}

theorem unlogged_ofExchanges : (ofExchanges json log exchanges).unlogged =
    ⟨0, String.join (exchanges.map Exchange.replyText), faultText (exchanges.filterMap Exchange.message?)⟩ := by
  rw [unlogged_eq, ofExchanges, List.map_cons, String.join_cons, Exchange.join_ownText, Note.ownText,
    String.empty_append]

theorem faultLines_ofExchanges
    (hmessages : ∀ message ∈ exchanges.filterMap Exchange.message?, IsLine message)
    (hlog : ∀ earlier event, .event event ∈ (ofExchanges json log exchanges).notes → IsAside (log earlier event)) :
    faultLines (ofExchanges json log exchanges).outcome.stderr =
      (exchanges.filterMap Exchange.message?).map ("error: " ++ ·) := by
  have hown : ∀ note ∈ (ofExchanges json log exchanges).notes, IsWhole note.ownText := by
    refine List.forall_mem_cons.mpr ⟨.inl rfl, ?_⟩
    intro note hnote
    obtain ⟨exchange, -, hnote⟩ := List.mem_flatMap.mp hnote
    exact exchange.isWhole_ownText note hnote
  rw [faultLines_stderr hown hlog, unlogged_ofExchanges, faultLines_faultText hmessages]

end Report

variable [DieSource σ]

section Commands

variable {responder : Responder} {jsonText : Result String → String} {json : Bool} {name query : String}

/-- All dice that are rolled for the commands on lines have one side. -/
def OneSided (lines : List (List Char)) : Prop :=
  ∀ line ∈ lines, ∀ name query command, Reads line name query → Command.ofText name = .ok command →
    ∀ p ∈ rolledPools maxRepetitions query.toList, p.sides ≤ 1

theorem oneSided_iff {lines : List (List Char)} : OneSided lines ↔
    ∀ line ∈ lines, ∀ request ∈ lineRequest? line, ∀ command ∈ (Command.ofText request.1).toOption,
      ∀ p ∈ rolledPools maxRepetitions request.2.toList, p.sides ≤ 1 := by
  constructor
  · rintro h line hline ⟨name, query⟩ hrequest command hcommand
    have hok : Command.ofText name = .ok command := by
      cases hname : Command.ofText name with
      | error e => simp [hname, Except.toOption] at hcommand
      | ok found =>
        rw [hname] at hcommand
        cases hcommand
        rfl
    exact h line hline name query command (lineRequest?_eq_some_iff.mp hrequest) hok
  · intro h line hline name query command hreads hcommand
    refine h line hline (name, query) (lineRequest?_eq_some_iff.mpr hreads) command ?_
    rw [hcommand]
    rfl

instance (lines : List (List Char)) : Decidable (OneSided lines) := decidable_of_iff _ oneSided_iff.symm

theorem fixed_runCommand [LawfulDieSource σ]
    (h : ∀ command, Command.ofText name = .ok command →
      ∀ p ∈ rolledPools maxRepetitions query.toList, p.sides ≤ 1) :
    Fixed (runCommand responder jsonText json name query : Tray σ → _) := by
  intro tray tray'
  rcases Command.ofText_cases name with ⟨command, hcommand⟩ | hunknown
  · have hanswer := @fixed_answer σ _ _ command.mode responder.evaluator query (h command hcommand) tray tray'
    have hresult : (responder.answer query command.mode tray).1 =
        (responder.answer query command.mode tray').1 := by
      simp only [Responder.answer, hanswer]
    rw [Responder.runCommand_of_ofText jsonText hcommand, Responder.runCommand_of_ofText jsonText hcommand, hresult]
  · rw [Responder.runCommand_of_unknown jsonText hunknown, Responder.runCommand_of_unknown jsonText hunknown]

theorem isLine_of_runCommand (hname : IsLine name) (hevaluator : responder.evaluator = evaluate)
    {tray : Tray σ} {e : Failure} (h : (runCommand responder jsonText json name query tray).1 = .error e) :
    IsLine e.message := by
  rcases Command.ofText_cases name with ⟨command, hcommand⟩ | hunknown
  · rw [Responder.runCommand_of_ofText jsonText hcommand, Responder.answer, hevaluator] at h
    cases hanswer : Query.answer evaluate query command.mode tray with
    | mk outcome after =>
      rw [hanswer] at h
      cases outcome with
      | error e =>
        cases h
        exact Query.isLine_of_answer hanswer
      | ok r => cases h
  · rw [Responder.runCommand_of_unknown jsonText hunknown] at h
    cases h
    exact hname.after (by decide)

theorem Reads.isLine_name {line : List Char} (h : Reads line name query) : IsLine name := by
  intro hnewline
  have hblank := h.visible '\n' hnewline
  revert hblank
  decide

end Commands

section Lines

variable {responder : Responder} {jsonText : Result String → String} {json : Bool} {line : List Char}
  {lines : List (List Char)} {toolkit : Toolkit σ} {tray : Tray σ}

theorem runLines_of_none (h : lineRequest? line = none) :
    runLines responder jsonText json (line :: lines) tray = runLines responder jsonText json lines tray := by
  rw [runLines, h]

theorem runLines_of_some {name query : String} (h : lineRequest? line = some (name, query)) :
    runLines responder jsonText json (line :: lines) tray =
      ⟨name, query, tray, (runCommand responder jsonText json name query tray).1⟩ ::
        runLines responder jsonText json lines (runCommand responder jsonText json name query tray).2 := by
  rw [runLines, h]

/-- The outcomes of lines are those of runs for their commands, one after the other. -/
theorem transcript_of_runLines [LawfulDieSource σ] (hlaws : toolkit.Lawful)
    {shot : (name query : String) → Outcome → Prop} (hevaluator : responder.evaluator = evaluate)
    (hshot : ∀ name query outcome,
      (∀ tray : Tray σ, (runCommand responder toolkit.jsonText json name query tray).1 = outcome) →
        shot name query (toolkit.shotOutcome outcome))
    (hdice : OneSided lines) (tray : Tray σ) :
    Transcript shot lines
      (String.join ((runLines responder toolkit.jsonText json lines tray).map Exchange.replyText))
      ((runLines responder toolkit.jsonText json lines tray).filterMap Exchange.message?) := by
  induction lines generalizing tray with
  | nil => exact .finish
  | cons line lines ih =>
    have hrest := ih fun l hl => hdice l (List.mem_cons_of_mem line hl)
    cases hline : lineRequest? line with
    | none =>
      rw [runLines_of_none hline]
      exact .blank (lineRequest?_eq_none_iff.mp hline) (hrest tray)
    | some request =>
      obtain ⟨name, query⟩ := request
      have hreads := lineRequest?_eq_some_iff.mp hline
      have hfixed : Fixed (runCommand responder toolkit.jsonText json name query : Tray σ → _) :=
        fixed_runCommand fun command hcommand =>
          hdice line List.mem_cons_self name query command hreads hcommand
      rw [runLines_of_some hline, List.map_cons, String.join_cons]
      cases houtcome : (runCommand responder toolkit.jsonText json name query tray).1 with
      | ok reply =>
        have hreply := hshot name query (.ok reply) fun tray' => (hfixed tray' tray).trans houtcome
        rw [List.filterMap_cons_none rfl]
        exact .reply hreads hreply (hrest _)
      | error e =>
        have hfault := hshot name query (.error e) fun tray' => (hfixed tray' tray).trans houtcome
        have hmessage := isLine_of_runCommand hreads.isLine_name hevaluator houtcome
        have hfailed : Exchange.message? ⟨name, query, tray, .error e⟩ = some e.message := rfl
        rw [List.filterMap_cons_some hfailed, Exchange.replyText, String.empty_append]
        exact .fault hreads hfault (hlaws.firstLine_complaint e.message e.causes hmessage) (hrest _)

end Lines

section Sessions

variable {toolkit : Toolkit σ} {invocation : Invocation} {options : List String} {settings : Settings}
  {around : Surroundings}

theorem unlogged_two_words (responder : Responder) (log : Nat → Event σ → String) (name query stdin : String)
    (tray : Tray σ) :
    (Invocation.report toolkit { invocation with words := [name, query] } responder log stdin tray).unlogged =
      toolkit.shotOutcome (runCommand responder toolkit.jsonText (invocation.has .json) name query tray).1 := by
  have hquery : " ".intercalate [query] = query := by simp
  have hflag : Invocation.has { invocation with words := [name, query] } .json = invocation.has .json := rfl
  rw [Report.unlogged_eq]
  simp only [Invocation.report, hquery, hflag]
  simp [Note.ownText]

theorem report_no_words (hwords : invocation.words = []) (responder : Responder) (log : Nat → Event σ → String)
    (stdin : String) (tray : Tray σ) : invocation.report toolkit responder log stdin tray =
      .ofExchanges (invocation.has .json) log
        (runLines responder toolkit.jsonText (invocation.has .json) (Text.lines stdin.toList) tray) := by
  simp only [Invocation.report, hwords]

/-- How a run for one command ends, on any tray and with any standard input. The words stand behind `--`. -/
def Alone (run : (arguments : List String) → Surroundings → Tray σ → Outcome) (options : List String)
    (around : Surroundings) (name query : String) (outcome : Outcome) : Prop :=
  ∀ stdin tray, run (options ++ ["--", name, query]) { around with stdin } tray = outcome

section Options

variable (hlaws : toolkit.Lawful) (hoptions : toolkit.readArguments options = .ok invocation)
  (hwords : invocation.words = []) (hseparator : "--" ∉ options)
  (hsettings : invocation.settings toolkit.settings (around.file? invocation.file) around.environment = .ok settings)
include hlaws hoptions hwords hseparator hsettings

/-- Words behind `--` are run with the same settings and flags as no words. -/
theorem report_append (words : List String) (stdin : String) (tray : Tray σ) :
    toolkit.report (options ++ "--" :: words) { around with stdin } tray =
      Invocation.report toolkit { invocation with words } settings.responder
        (toolkit.logged (toolkit.log around.environment settings)) stdin tray := by
  have hsame : Invocation.settings toolkit.settings { invocation with words }
      (around.file? (Invocation.file { invocation with words })) around.environment = .ok settings := hsettings
  rw [Toolkit.report, hlaws.readArguments_append options words invocation hoptions hwords hseparator]
  simp only [hsame]

theorem report_of_mem {arguments : List String} (h : arguments ∈ [options, options ++ ["--"]]) (tray : Tray σ) :
    toolkit.report arguments around tray = invocation.report toolkit settings.responder
      (toolkit.logged (toolkit.log around.environment settings)) around.stdin tray := by
  rcases List.mem_pair.mp h with rfl | rfl
  · rw [Toolkit.report, hoptions]
    simp only [hsettings]
  · have hsame : { invocation with words := [] } = invocation := by rw [← hwords]
    rw [← hsame]
    exact report_append hlaws hoptions hwords hseparator hsettings [] around.stdin tray

theorem alone_runUnlogged {name query : String} {outcome : Except Failure String}
    (houtcome : ∀ tray : Tray σ,
      (runCommand settings.responder toolkit.jsonText (invocation.has .json) name query tray).1 = outcome) :
    Alone toolkit.runUnlogged options around name query (toolkit.shotOutcome outcome) := by
  intro stdin tray
  rw [Toolkit.runUnlogged, report_append hlaws hoptions hwords hseparator hsettings, unlogged_two_words, houtcome]

theorem alone_run_of_silent (hsilent : Silent (toolkit.logged (toolkit.log around.environment settings)))
    {name query : String} {outcome : Outcome} (h : Alone toolkit.runUnlogged options around name query outcome) :
    Alone toolkit.run options around name query outcome := by
  intro stdin tray
  rw [← h stdin tray, Toolkit.run, Toolkit.runUnlogged, report_append hlaws hoptions hwords hseparator hsettings]
  exact Report.outcome_of_silent hsilent

end Options

/-- A session does not fail, and writes what the runs of the program for the commands on its lines write. This holds
whatever toolkit they all are run with, and whether `--` stands behind the options of the session or not. A line of
the session is at fault just where the run for its command fails, and then the session tells of this fault. All that
may come to the error output beyond that is what is logged: nothing if the log is silent, and no line that could be
taken for one that tells of a fault if the log has no such lines. -/
theorem run_session [LawfulDieSource σ] (hlaws : toolkit.Lawful)
    (hoptions : toolkit.readArguments options = .ok invocation) (hwords : invocation.words = [])
    (hseparator : "--" ∉ options)
    (hsettings : invocation.settings toolkit.settings (around.file? invocation.file) around.environment =
      .ok settings)
    (hdice : OneSided (Text.lines around.stdin.toList)) (tray : Tray σ) :
    let log := toolkit.logged (toolkit.log around.environment settings)
    ∃ out messages,
      Transcript (Alone toolkit.runUnlogged options around) (Text.lines around.stdin.toList) out messages ∧
      (Silent log → Transcript (Alone toolkit.run options around) (Text.lines around.stdin.toList) out messages) ∧
      ∀ arguments ∈ [options, options ++ ["--"]],
        toolkit.runUnlogged arguments around tray = ⟨0, out, faultText messages⟩ ∧
        ∃ err, toolkit.run arguments around tray = ⟨0, out, err⟩ ∧
          (Silent log → err = faultText messages) ∧
          ((∀ earlier event, .event event ∈ (toolkit.report arguments around tray).notes →
            IsAside (log earlier event)) → faultLines err = messages.map ("error: " ++ ·)) := by
  intro log
  have hevaluator : settings.responder.evaluator = evaluate := rfl
  have htranscript := transcript_of_runLines hlaws hevaluator
    (fun _ _ _ => alone_runUnlogged hlaws hoptions hwords hseparator hsettings) hdice tray
  refine ⟨_, _, htranscript, ?_, ?_⟩
  · intro hsilent
    exact htranscript.imp fun _ _ _ => alone_run_of_silent hlaws hoptions hwords hseparator hsettings hsilent
  · intro arguments harguments
    have hreport := report_of_mem hlaws hoptions hwords hseparator hsettings harguments tray
    rw [report_no_words hwords] at hreport
    rw [Toolkit.runUnlogged, Toolkit.run, hreport]
    generalize runLines settings.responder toolkit.jsonText _ _ tray = exchanges at htranscript ⊢
    refine ⟨Report.unlogged_ofExchanges, (Report.ofExchanges _ log exchanges).outcome.stderr, rfl, ?_, ?_⟩
    · intro hsilent
      rw [Report.outcome_of_silent hsilent, Report.unlogged_ofExchanges]
    · exact Report.faultLines_ofExchanges htranscript.isLine

omit [DieSource σ] in
theorem Toolkit.lawful_usual : (usual : Toolkit σ).Lawful where
  readArguments_append options words invocation h hwords hseparator := by
    have hrequest : Request.ofArguments options = .ok (.run invocation) := by
      cases hread : Request.ofArguments options with
      | error fault => simp [usual, hread] at h
      | ok request =>
        cases request with
        | version => simp [usual, hread] at h
        | run read => simpa [usual, hread] using h
    simp only [usual, ofArguments_append words hrequest hwords hseparator]
  firstLine_complaint message causes hmessage := by
    refine ⟨hmessage, ?_⟩
    cases causes with
    | nil => exact .inl rfl
    | cons cause causes =>
      refine .inr ⟨"\nCaused by:" ++ String.join ((cause :: causes).map ("\n    " ++ ·)), ?_⟩
      simp only [usual, String.append_assoc]
      rfl

/-- A reply, a blank line and two faults, with a log that lets nothing through. -/
def fourLines : Surroundings where
  file? _ := none
  environment := [(filterVariable, "off")]
  stdin := "!roll 2x1d1\n \t\nbogus 1d6\r\n rollfate  1d1/0"

theorem run_session_four_lines :
    let tray := Tray.ofDice (RandomDice.mk (mkStdGen 7))
    OneSided (Text.lines fourLines.stdin.toList) ∧
      ∃ out messages,
        Transcript (Alone (run : List String → Surroundings → Tray RandomDice → Outcome) ["--plain"] fourLines)
          (Text.lines fourLines.stdin.toList) out messages ∧
        ∀ arguments ∈ [["--plain"], ["--plain", "--"]],
          run arguments fourLines tray = ⟨0, out, faultText messages⟩ := by
  have hdice : OneSided (Text.lines fourLines.stdin.toList) := by decide +kernel
  have hoptions : (Toolkit.usual : Toolkit RandomDice).readArguments ["--plain"] = .ok { flags := [.plain] } := rfl
  have hsettings : Invocation.settings .usual { flags := [.plain] } (fourLines.file? Settings.defaultFile)
      fourLines.environment = .ok { markup := .plain } := rfl
  obtain ⟨out, messages, -, htranscript, hruns⟩ :=
    run_session Toolkit.lawful_usual hoptions rfl (by decide) hsettings hdice _
  refine ⟨hdice, out, messages, htranscript fun _ _ => rfl, ?_⟩
  intro arguments harguments
  obtain ⟨-, err, hrun, herr, -⟩ := hruns arguments harguments
  rw [← herr fun _ _ => rfl]
  exact hrun

end Sessions

end CommandLine

end Tabletop

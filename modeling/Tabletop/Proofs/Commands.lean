import Tabletop.CommandLine.Session
import Tabletop.Proofs.Registering

/-!
Ways to a command. A command can be read off a name, found in a table under the name, or run on the command line,
for its text or for its result as JSON. Main statement: all of these ways lead to the same command with the same
outcome, or all of them fail for want of a command, and then no die is drawn.
-/

namespace Tabletop

open CommandTable CommandLine

variable {σ : Type} [DieSource σ]

theorem Command.key_name (command : Command) : key command.name = command.name := by
  cases command <;> rfl

theorem Command.ofText_cases (name : String) :
    (∃ command, ofText name = .ok command) ∨ ofText name = .error (.unknownCommand name) := by
  unfold ofText
  split
  · next command _ => exact .inl ⟨command, rfl⟩
  · exact .inr rfl

namespace Responder

variable (responder : Responder)

theorem records_activate : Records (Call.registrations (.activate responder : Call σ))
    (responder.activate .empty) := Records.empty.registerAll responder Command.all

theorem mem_registrations {r : Registration σ} (h : r ∈ Call.registrations (.activate responder)) :
    ∃ command, r = ⟨Command.key command.name, command.description, responder.reply command⟩ := by
  obtain ⟨command, -, rfl⟩ := List.mem_map.mp h
  exact ⟨command, rfl⟩

/-- The registration of each command is the only one under its key. -/
theorem latest_activate (command : Command) : Latest (Call.registrations (.activate responder : Call σ))
    ⟨Command.key command.name, command.description, responder.reply command⟩ := by
  have hmem : ⟨Command.key command.name, command.description, responder.reply command⟩ ∈
      Call.registrations (.activate responder : Call σ) := List.mem_map_of_mem (Command.mem_all command)
  obtain ⟨r, hr, hkey⟩ := exists_latest hmem
  obtain ⟨other, rfl⟩ := responder.mem_registrations hr.mem
  have hname : other.name = command.name := by simpa only [Command.key_name] using hkey
  rwa [Command.name_injective hname] at hr

variable {responder} {name : String}

theorem contains_of_ofText {command : Command} (h : Command.ofText name = .ok command) :
    (responder.activate .empty : CommandTable σ).contains name = true := by
  rw [Command.ofText_eq_ok_iff] at h
  refine responder.records_activate.contains_iff.mpr ⟨_, (responder.latest_activate command).mem, ?_⟩
  rw [h, Command.key_name]

theorem dispatch_of_ofText {command : Command} (h : Command.ofText name = .ok command) :
    (responder.activate .empty : CommandTable σ).dispatch name = responder.reply command := by
  rw [Command.ofText_eq_ok_iff] at h
  refine responder.records_activate.dispatch_of_latest (responder.latest_activate command) ?_
  rw [h, Command.key_name]

theorem key_ne_of_ofText (h : Command.ofText name = .error (.unknownCommand name)) :
    ∀ r ∈ Call.registrations (.activate responder : Call σ), r.key ≠ Command.key name := by
  intro r hr hkey
  obtain ⟨command, rfl⟩ := responder.mem_registrations hr
  have hname : Command.key name = command.name := by
    rw [← hkey, Command.key_name]
  rw [Command.ofText_eq_ok_iff.mpr hname] at h
  cases h

theorem not_contains_of_ofText (h : Command.ofText name = .error (.unknownCommand name)) :
    (responder.activate .empty : CommandTable σ).contains name = false := by
  rw [← Bool.not_eq_true, responder.records_activate.contains_iff]
  rintro ⟨r, hr, hkey⟩
  exact key_ne_of_ofText h r hr hkey

/-- What a run shows of a result. -/
def shown (responder : Responder) (jsonText : Result String → String) (json : Bool) (result : Result String) :
    String :=
  if json then jsonText result else responder.write result

variable (jsonText : Result String → String)

theorem runCommand_of_ofText {command : Command} (h : Command.ofText name = .ok command) (json : Bool)
    (query : String) (tray : Tray σ) : runCommand responder jsonText json name query tray =
      ((responder.answer query command.mode tray).1.map (responder.shown jsonText json),
        (responder.answer query command.mode tray).2) := by
  cases json with
  | true =>
    rw [runCommand, if_pos rfl, h]
    rfl
  | false =>
    rw [runCommand, if_neg Bool.false_ne_true, dispatch_of_ofText h]
    rfl

theorem runCommand_of_unknown (h : Command.ofText name = .error (.unknownCommand name)) (json : Bool)
    (query : String) (tray : Tray σ) :
    runCommand responder jsonText json name query tray = (.error (.unknownCommand name), tray) := by
  cases json with
  | true => rw [runCommand, if_pos rfl, h]
  | false =>
    rw [runCommand, if_neg Bool.false_ne_true]
    exact responder.records_activate.dispatch_of_none (key_ne_of_ofText h) [query] tray

/-- Whatever the name and the tray, either a command can be read off the name, and then it is found under the name,
replies as it would by itself and shows as JSON the result that its reply is the text of, or with the same failure
and with as many draws it has neither; or else there is no such command in any way, and the tray stays as it is. How
a result is written as JSON makes no difference. -/
theorem ways_agree (responder : Responder) (jsonText : Result String → String) (name : String) (tray : Tray σ) :
    (∃ command, Command.ofText name = .ok command ∧
      (responder.activate .empty : CommandTable σ).contains name = true ∧
      (∀ args, (responder.activate .empty).dispatch name args tray = responder.reply command args tray) ∧
      ∀ query, ∃ outcome after, responder.answer query command.mode tray = (outcome, after) ∧
        runCommand responder jsonText true name query tray = (outcome.map jsonText, after) ∧
        runCommand responder jsonText false name query tray = (outcome.map responder.write, after)) ∨
    (Command.ofText name = .error (.unknownCommand name) ∧
      (responder.activate .empty : CommandTable σ).contains name = false ∧
      (∀ args, (responder.activate .empty).dispatch name args tray = (.error (.unknownCommand name), tray)) ∧
      ∀ json query, runCommand responder jsonText json name query tray = (.error (.unknownCommand name), tray)) := by
  rcases Command.ofText_cases name with ⟨command, hcommand⟩ | hunknown
  · refine .inl ⟨command, hcommand, contains_of_ofText hcommand, ?_, ?_⟩
    · intro args
      rw [dispatch_of_ofText hcommand]
    · intro query
      exact ⟨_, _, rfl, runCommand_of_ofText jsonText hcommand true query tray,
        runCommand_of_ofText jsonText hcommand false query tray⟩
  · refine .inr ⟨hunknown, not_contains_of_ofText hunknown, ?_, ?_⟩
    · intro args
      exact responder.records_activate.dispatch_of_none (key_ne_of_ofText hunknown) args tray
    · intro json query
      exact runCommand_of_unknown jsonText hunknown json query tray

end Responder

end Tabletop

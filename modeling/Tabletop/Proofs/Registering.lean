import Tabletop.Command.Responder
import Tabletop.Proofs.ByteOrder
import Mathlib.Data.Finset.Card

/-!
Calls of a command table. A host registers commands, runs them, looks for them and lists them in any order, and
what it has registered so far decides every answer: under each key there is the last command registered there.
Main statement: all answers of a run are those of the registrations before them, and to run a command, with or
without success, registers nothing.
-/

namespace Tabletop

namespace CommandTable

variable {σ : Type}

/-- What a host asks of its table. -/
inductive Call (σ : Type) where
  | register (name description : String) (handler : Handler σ)
  | activate (responder : Responder)
  | dispatch (name : String) (args : List String)
  | contains (name : String)
  | list
  | size

inductive Answer where
  | done
  | outcome (outcome : Except Failure String)
  | found (isFound : Bool)
  | entries (entries : List (String × String))
  | count (n : Nat)

section Runs

variable [DieSource σ]

/-- The answer to a call, and the table and the tray after it. -/
def Call.perform : Call σ → CommandTable σ × Tray σ → Answer × CommandTable σ × Tray σ
  | register name description handler, (table, tray) =>
    (.done, table.register name description handler, tray)
  | activate responder, (table, tray) => (.done, responder.activate table, tray)
  | dispatch name args, (table, tray) =>
    let (outcome, tray) := table.dispatch name args tray
    (.outcome outcome, table, tray)
  | contains name, (table, tray) => (.found (table.contains name), table, tray)
  | list, (table, tray) => (.entries table.list, table, tray)
  | size, (table, tray) => (.count table.size, table, tray)

/-- The answers to calls in a row, and the table and the tray after the last of them. -/
def run : List (Call σ) → CommandTable σ × Tray σ → List Answer × CommandTable σ × Tray σ
  | [], desk => ([], desk)
  | call :: calls, desk =>
    let (answer, desk) := call.perform desk
    let (answers, desk) := run calls desk
    (answer :: answers, desk)

/-- What a call registers; to activate a responder is to register its commands one after the other. -/
def Call.registrations : Call σ → List (Registration σ)
  | register name description handler => [⟨Command.key name, description, handler⟩]
  | activate responder =>
    Command.all.map fun command =>
      ⟨Command.key command.name, command.description, responder.reply command⟩
  | dispatch .. | contains _ | list | size => []

end Runs

/-- A registration with none of its key behind it. -/
def Latest (history : List (Registration σ)) (r : Registration σ) : Prop :=
  ∃ earlier later, history = earlier ++ r :: later ∧ ∀ d ∈ later, d.key ≠ r.key

theorem latest_iff_find? {history : List (Registration σ)} {r : Registration σ} :
    Latest history r ↔ history.reverse.find? (fun e => e.key = r.key) = some r := by
  rw [List.find?_eq_some_iff_append]
  constructor
  · rintro ⟨earlier, later, rfl, hlater⟩
    refine ⟨by simp, later.reverse, earlier.reverse, by simp, ?_⟩
    intro d hd
    simpa using hlater d (List.mem_reverse.mp hd)
  · rintro ⟨-, later, earlier, hhistory, hlater⟩
    refine ⟨earlier.reverse, later.reverse, ?_, ?_⟩
    · rw [← List.reverse_reverse history, hhistory]
      simp
    · intro d hd
      simpa using hlater d (List.mem_reverse.mp hd)

theorem Latest.mem {history : List (Registration σ)} {r : Registration σ} (h : Latest history r) :
    r ∈ history := by
  obtain ⟨earlier, later, rfl, -⟩ := h
  exact List.mem_append_cons_self

/-- Under a key that was registered there is a latest registration. -/
theorem exists_latest {history : List (Registration σ)} {r : Registration σ} (hr : r ∈ history) :
    ∃ s, Latest history s ∧ s.key = r.key := by
  have hfound : (history.reverse.find? fun e => e.key = r.key).isSome = true :=
    List.find?_isSome.mpr ⟨r, List.mem_reverse.mpr hr, by simp⟩
  obtain ⟨s, hs⟩ := Option.isSome_iff_exists.mp hfound
  have hkey : s.key = r.key := by simpa using List.find?_some hs
  exact ⟨s, latest_iff_find?.mpr (by rw [hkey, hs]), hkey⟩

/-- The table holds the latest registrations and no others. -/
structure Records (history : List (Registration σ)) (table : CommandTable σ) : Prop where
  ordered : Ordered table.entries
  find? : ∀ key, table.entries.find? (fun e => e.key = key) =
    history.reverse.find? fun e => e.key = key

namespace Records

variable {history : List (Registration σ)} {table : CommandTable σ}

theorem empty : Records [] (empty : CommandTable σ) where
  ordered := ordered_nil
  find? _ := rfl

theorem register (h : Records history table) (name description : String) (handler : Handler σ) :
    Records (history ++ [⟨Command.key name, description, handler⟩])
      (table.register name description handler) where
  ordered := ordered_register h.ordered name description handler
  find? key := by
    rw [CommandTable.register, find?_place, h.find?, List.reverse_concat, List.find?_cons]
    by_cases hkey : key = Command.key name
    · simp [hkey]
    · simp [hkey, Ne.symm hkey]

section Runs

variable [DieSource σ]

theorem registerAll (h : Records history table) (responder : Responder) (commands : List Command) :
    Records (history ++ commands.map fun command =>
        ⟨Command.key command.name, command.description, responder.reply command⟩)
      (commands.foldl (fun table command =>
        table.register command.name command.description (responder.reply command)) table) := by
  induction commands generalizing history table with
  | nil => rwa [List.map_nil, List.append_nil]
  | cons command commands ih =>
    rw [List.map_cons, List.append_cons, List.foldl_cons]
    exact ih (h.register ..)

/-- After a call the table holds what the call registers as well. -/
theorem perform (h : Records history table) (call : Call σ) (tray : Tray σ) :
    Records (history ++ call.registrations) (call.perform (table, tray)).2.1 := by
  cases call with
  | register name description handler => exact h.register name description handler
  | activate responder => exact h.registerAll responder Command.all
  | dispatch | contains | list | size => rwa [Call.registrations, List.append_nil]

theorem run (h : Records history table) (calls : List (Call σ)) (tray : Tray σ) :
    Records (history ++ calls.flatMap Call.registrations) (CommandTable.run calls (table, tray)).2.1 := by
  induction calls generalizing history table tray with
  | nil => rwa [List.flatMap_nil, List.append_nil]
  | cons call calls ih =>
    rw [List.flatMap_cons, ← List.append_assoc]
    exact ih (h.perform call tray) _

end Runs

theorem mem_entries_iff (h : Records history table) {r : Registration σ} :
    r ∈ table.entries ↔ Latest history r := by
  rw [latest_iff_find?, ← h.find?]
  constructor
  · intro hr
    obtain ⟨before, behind, hentries⟩ := List.append_of_mem hr
    refine List.find?_eq_some_iff_append.mpr ⟨by simp, before, behind, hentries, ?_⟩
    intro e he
    have hordered : ∀ e ∈ before, e.key < r.key := by
      intro e he
      have hpairs := h.ordered
      rw [hentries, Ordered, List.pairwise_append] at hpairs
      exact hpairs.2.2 e he r List.mem_cons_self
    simpa using (String.ne_of_lt (hordered e he))
  · exact List.mem_of_find?_eq_some

theorem find?_eq_some_iff (h : Records history table) {name : String} {r : Registration σ} :
    table.find? name = some r ↔ Latest history r ∧ r.key = Command.key name := by
  rw [CommandTable.find?, h.find?, latest_iff_find?]
  constructor
  · intro hr
    have hkey : r.key = Command.key name := by simpa using List.find?_some hr
    exact ⟨by rw [hkey, hr], hkey⟩
  · rintro ⟨hr, hkey⟩
    rwa [← hkey]

theorem find?_eq_none_iff (h : Records history table) {name : String} :
    table.find? name = none ↔ ∀ r ∈ history, r.key ≠ Command.key name := by
  rw [CommandTable.find?, h.find?, List.find?_eq_none]
  simp

end Records

/-- What is listed: the latest registrations with their descriptions, in the order of the bytes of the keys. -/
structure Lists (history : List (Registration σ)) (entries : List (String × String)) : Prop where
  ordered : (entries.map Prod.fst).Pairwise fun a b => Text.bytes a < Text.bytes b
  mem_iff : ∀ key description, (key, description) ∈ entries ↔
    ∃ r, Latest history r ∧ r.key = key ∧ r.description = description

namespace Records

variable {history : List (Registration σ)} {table : CommandTable σ}

theorem lists (h : Records history table) : Lists history table.list where
  ordered := by
    rw [list, List.map_map, List.pairwise_map]
    exact h.ordered.imp fun hlt => Text.bytes_lt_bytes hlt
  mem_iff key description := by
    simp only [list, List.mem_map, Prod.mk.injEq, h.mem_entries_iff]

/-- The number of keys under which something was registered. -/
theorem size_eq (h : Records history table) :
    table.size = (history.map Registration.key).toFinset.card := by
  have hnodup : (table.entries.map Registration.key).Nodup :=
    List.pairwise_map.mpr (h.ordered.imp String.ne_of_lt)
  have hkeys : (table.entries.map Registration.key).toFinset = (history.map Registration.key).toFinset := by
    ext key
    simp only [List.mem_toFinset, List.mem_map, h.mem_entries_iff]
    constructor
    · rintro ⟨r, hr, rfl⟩
      exact ⟨r, hr.mem, rfl⟩
    · rintro ⟨r, hr, rfl⟩
      exact exists_latest hr
  rw [size, ← hkeys, List.toFinset_card_of_nodup hnodup, List.length_map]

theorem contains_iff (h : Records history table) {name : String} :
    table.contains name = true ↔ ∃ r ∈ history, r.key = Command.key name := by
  rw [contains, Option.isSome_iff_ne_none, ne_eq, h.find?_eq_none_iff]
  simp

theorem dispatch_of_latest (h : Records history table) {name : String} {r : Registration σ}
    (hr : Latest history r) (hkey : r.key = Command.key name) : table.dispatch name = r.handler := by
  funext args tray
  rw [dispatch, h.find?_eq_some_iff.mpr ⟨hr, hkey⟩]

theorem dispatch_of_none (h : Records history table) {name : String}
    (hnone : ∀ r ∈ history, r.key ≠ Command.key name) (args : List String) (tray : Tray σ) :
    table.dispatch name args tray = (.error (.unknownCommand name), tray) := by
  rw [dispatch, h.find?_eq_none_iff.mpr hnone]

end Records

section Answered

variable [DieSource σ]

/-- What the registrations so far make of a call on a tray: its answer, and the tray after it. A command is run
by applying the latest handler under the key of its name to the tray, once. -/
inductive Answered (history : List (Registration σ)) (tray : Tray σ) : Call σ → Answer → Tray σ → Prop
  | register (name description : String) (handler : Handler σ) :
      Answered history tray (.register name description handler) .done tray
  | activate (responder : Responder) : Answered history tray (.activate responder) .done tray
  | dispatch {name : String} (args : List String) {r : Registration σ} :
      Latest history r → r.key = Command.key name →
        Answered history tray (.dispatch name args) (.outcome (r.handler args tray).1)
          (r.handler args tray).2
  | unknown {name : String} (args : List String) : (∀ r ∈ history, r.key ≠ Command.key name) →
      Answered history tray (.dispatch name args) (.outcome (.error (.unknownCommand name))) tray
  | found {name : String} {isFound : Bool} :
      (isFound = true ↔ ∃ r ∈ history, r.key = Command.key name) →
        Answered history tray (.contains name) (.found isFound) tray
  | entries {entries : List (String × String)} : Lists history entries →
      Answered history tray .list (.entries entries) tray
  | count : Answered history tray .size (.count (history.map Registration.key).toFinset.card) tray

/-- Calls in a row, each answered by the registrations before it. -/
inductive AnsweredAll : List (Registration σ) → Tray σ → List (Call σ) → List Answer → Tray σ → Prop
  | nil (history : List (Registration σ)) (tray : Tray σ) : AnsweredAll history tray [] [] tray
  | cons {history : List (Registration σ)} {tray tray₁ tray' : Tray σ} {call : Call σ}
      {calls : List (Call σ)} {answer : Answer} {answers : List Answer} :
      Answered history tray call answer tray₁ →
        AnsweredAll (history ++ call.registrations) tray₁ calls answers tray' →
          AnsweredAll history tray (call :: calls) (answer :: answers) tray'

variable {history : List (Registration σ)} {table : CommandTable σ}

theorem Records.answered (h : Records history table) (call : Call σ) (tray : Tray σ) :
    Answered history tray call (call.perform (table, tray)).1 (call.perform (table, tray)).2.2 := by
  cases call with
  | register name description handler => exact .register name description handler
  | activate responder => exact .activate responder
  | dispatch name args =>
    simp only [Call.perform]
    by_cases hnone : ∀ r ∈ history, r.key ≠ Command.key name
    · rw [h.dispatch_of_none hnone]
      exact .unknown args hnone
    · push Not at hnone
      obtain ⟨s, hs, hkey⟩ := hnone
      obtain ⟨r, hr, hrs⟩ := exists_latest hs
      rw [h.dispatch_of_latest hr (hrs.trans hkey)]
      exact .dispatch args hr (hrs.trans hkey)
  | contains name => exact .found h.contains_iff
  | list => exact .entries h.lists
  | size =>
    simp only [Call.perform, h.size_eq]
    exact .count

theorem Records.answeredAll (h : Records history table) (calls : List (Call σ)) (tray : Tray σ) :
    AnsweredAll history tray calls (CommandTable.run calls (table, tray)).1
      (CommandTable.run calls (table, tray)).2.2 := by
  induction calls generalizing history table tray with
  | nil => exact .nil history tray
  | cons call calls ih => exact .cons (h.answered call tray) (ih (h.perform call tray) _)

theorem run_append (before after : List (Call σ)) (desk : CommandTable σ × Tray σ) :
    (run (before ++ after) desk).2 = (run after (run before desk).2).2 := by
  induction before generalizing desk with
  | nil => rfl
  | cons call before ih => exact ih (call.perform desk).2

theorem table_perform (call : Call σ) (table : CommandTable σ) (tray tray' : Tray σ) :
    (call.perform (table, tray)).2.1 = (call.perform (table, tray')).2.1 := by
  cases call <;> rfl

/-- What a table becomes does not depend on what happens on the tray. -/
theorem table_run (calls : List (Call σ)) (table : CommandTable σ) (tray tray' : Tray σ) :
    (run calls (table, tray)).2.1 = (run calls (table, tray')).2.1 := by
  induction calls generalizing table tray tray' with
  | nil => rfl
  | cons call calls ih =>
    calc (run calls (call.perform (table, tray)).2).2.1
      _ = (run calls ((call.perform (table, tray)).2.1, (call.perform (table, tray')).2.2)).2.1 := ih ..
      _ = (run calls (call.perform (table, tray')).2).2.1 := by rw [table_perform call table tray tray']

/-- Every answer of a run that begins with an empty table is that of the registrations before it: the latest one
under the key of a name is run and found, and the latest ones of all keys are listed and counted. To run a
command, with or without success, makes no difference to the table, then or later. -/
theorem run_answered (tray : Tray σ) :
    (∀ calls, AnsweredAll [] tray calls (run calls (.empty, tray)).1 (run calls (.empty, tray)).2.2) ∧
      ∀ before name args after, (run (before ++ .dispatch name args :: after) (.empty, tray)).2.1 =
        (run (before ++ after) (.empty, tray)).2.1 := by
  constructor
  · intro calls
    exact Records.empty.answeredAll calls tray
  · intro before name args after
    rw [run_append, run_append]
    exact table_run after _ _ _

end Answered

end CommandTable

end Tabletop

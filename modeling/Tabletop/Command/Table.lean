import Tabletop.Command.Basic
import Tabletop.Query.Tray

/-!
Command tables. A host keeps its commands in a table, in the order of their keys, and the last command that
was registered under a key is the one that is found there. Main statements: registering a command changes
what is found under its own key and under no other, and keeps the keys in order.
-/

namespace Tabletop

/-- What a command does with its arguments. -/
abbrev Handler (σ : Type) := (args : List String) → Tray σ → Except Failure String × Tray σ

/-- A command that stands in a table. -/
structure Registration (σ : Type) where
  key : String
  description : String
  handler : Handler σ

structure CommandTable (σ : Type) where
  entries : List (Registration σ)

namespace CommandTable

variable {σ : Type}

def empty : CommandTable σ := ⟨[]⟩

/-- Puts a command in its place among ordered ones, where it takes that of a command with its key. -/
def place (new : Registration σ) : List (Registration σ) → List (Registration σ)
  | [] => [new]
  | e :: es =>
    if new.key < e.key then new :: e :: es
    else if new.key = e.key then new :: es
    else e :: place new es

/-- Registers a command under the key of its name. -/
def register (table : CommandTable σ) (name description : String) (handler : Handler σ) :
    CommandTable σ :=
  ⟨place ⟨Command.key name, description, handler⟩ table.entries⟩

/-- The command with the key of a name. -/
def find? (table : CommandTable σ) (name : String) : Option (Registration σ) :=
  table.entries.find? fun e => e.key = Command.key name

def contains (table : CommandTable σ) (name : String) : Bool := (table.find? name).isSome

/-- Runs the command that is found under a name. -/
def dispatch (table : CommandTable σ) (name : String) : Handler σ := fun args tray =>
  match table.find? name with
  | some command => command.handler args tray
  | none => (.error (.unknownCommand name), tray)

/-- The keys and the descriptions, in order. -/
def list (table : CommandTable σ) : List (String × String) :=
  table.entries.map fun e => (e.key, e.description)

def size (table : CommandTable σ) : Nat := table.entries.length

def isEmpty (table : CommandTable σ) : Bool := table.entries.isEmpty

/-- The keys are strictly increasing. -/
def Ordered (es : List (Registration σ)) : Prop := es.Pairwise fun d e => d.key < e.key

theorem ordered_nil : Ordered ([] : List (Registration σ)) := .nil

theorem find?_place (new : Registration σ) (es : List (Registration σ)) (key : String) :
    (place new es).find? (fun e => e.key = key) =
      if key = new.key then some new else es.find? (fun e => e.key = key) := by
  induction es with
  | nil => by_cases h : key = new.key <;> simp [place, h, Ne.symm]
  | cons e es ih =>
    unfold place
    by_cases h : key = new.key
    · subst h
      split
      · simp
      · split
        · simp
        · next ne => simp [Ne.symm ne, ih]
    · split
      · simp [Ne.symm h]
      · split
        · next _ eq => simp [Ne.symm h, ← eq]
        · simp [h, ih, List.find?_cons]

/-- The last command that was registered under a key is found there. -/
theorem find?_register (table : CommandTable σ) (name description other : String)
    (handler : Handler σ) :
    (table.register name description handler).find? other =
      if Command.key other = Command.key name then
        some ⟨Command.key name, description, handler⟩
      else table.find? other :=
  find?_place ..

theorem mem_of_mem_place {new d : Registration σ} {es : List (Registration σ)}
    (h : d ∈ place new es) : d = new ∨ d ∈ es := by
  induction es with
  | nil => simpa [place] using h
  | cons e es ih =>
    unfold place at h
    split at h
    · simpa using h
    · split at h
      · rcases List.mem_cons.1 h with rfl | h
        · exact .inl rfl
        · exact .inr (List.mem_cons_of_mem e h)
      · rcases List.mem_cons.1 h with rfl | h
        · exact .inr List.mem_cons_self
        · exact (ih h).imp_right (List.mem_cons_of_mem e)

theorem ordered_place {new : Registration σ} {es : List (Registration σ)} (h : Ordered es) :
    Ordered (place new es) := by
  induction es with
  | nil => simp [place, Ordered]
  | cons e es ih =>
    have ⟨above, rest⟩ := List.pairwise_cons.1 h
    unfold place
    split
    · next lt =>
      refine List.pairwise_cons.2 ⟨fun d hd => ?_, h⟩
      rcases List.mem_cons.1 hd with rfl | hd
      · exact lt
      · exact String.lt_trans lt (above d hd)
    · split
      · next _ eq => exact List.pairwise_cons.2 ⟨fun d hd => eq ▸ above d hd, rest⟩
      · next ge ne =>
        refine List.pairwise_cons.2 ⟨fun d hd => ?_, ih rest⟩
        rcases mem_of_mem_place hd with rfl | hd
        · exact Std.lt_of_le_of_ne (String.not_lt.1 ge) (Ne.symm ne)
        · exact above d hd

theorem ordered_register {table : CommandTable σ} (h : Ordered table.entries)
    (name description : String) (handler : Handler σ) :
    Ordered (table.register name description handler).entries :=
  ordered_place h

end CommandTable

end Tabletop

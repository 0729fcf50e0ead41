import Tabletop.Proofs.LetterCase
import Tabletop.Proofs.Registering
import Tabletop.Proofs.Trimming

/-!
Keys taken as names. A key is in lower case, no mark comes first in it and no blank last; but a blank may come
first, since blanks are trimmed off a name before the marks. Main statement: with a mark before it every key that a
table lists names its own command. Without a mark it does so exactly if no blank comes first; the key of a key with
a blank before it is another one.
-/

namespace Tabletop

open Text

namespace Command

/-- The form of keys. -/
structure IsKey (cs : List Char) : Prop where
  lower : ∀ c ∈ cs, lowerChar c = [c]
  first : ∀ c ∈ cs.head?, c ≠ '!'
  last : ∀ c ∈ cs.getLast?, isBlank c = false

theorem toList_key (name : String) :
    (key name).toList = lower ((trim name.toList).dropWhile (· == '!')) := String.toList_ofList

theorem mem_getLast?_of_suffix {cs ds : List Char} {c : Char} (h : cs <:+ ds) (hc : c ∈ cs.getLast?) :
    c ∈ ds.getLast? := by
  rw [Option.mem_def, ← List.singleton_suffix_iff_getLast?_eq_some] at hc ⊢
  exact hc.trans h

theorem isKey_key (name : String) : IsKey (key name).toList where
  lower c hc := by
    rw [toList_key] at hc
    exact lowerChar_of_mem_lowerFrom hc
  first c hc := by
    have hmark := isMark_head?_lower ((trim name.toList).dropWhile (· == '!'))
    rw [← toList_key, Option.mem_def.mp hc] at hmark
    obtain ⟨d, hd, hdc⟩ := Option.map_eq_some_iff.mp hmark.symm
    have hfirst := Arithmetic.head?_dropWhile_eq_false d hd
    simpa [hdc] using hfirst
  last c hc := by
    have hblank := isBlank_getLast?_lower ((trim name.toList).dropWhile (· == '!'))
    rw [← toList_key, Option.mem_def.mp hc] at hblank
    obtain ⟨d, hd, hdc⟩ := Option.map_eq_some_iff.mp hblank.symm
    rw [← hdc]
    exact (trimmed_trim name.toList).last d (mem_getLast?_of_suffix (List.dropWhile_suffix _) hd)

variable {k : String}

/-- The key of a key. -/
theorem toList_key_of_isKey (hk : IsKey k.toList) :
    (key k).toList = (trimLeft k.toList).dropWhile (· == '!') := by
  have hsuffix : trimLeft k.toList <:+ k.toList := List.dropWhile_suffix _
  have hlast : ∀ c ∈ (trimLeft k.toList).getLast?, isBlank c = false := fun c hc =>
    hk.last c (mem_getLast?_of_suffix hsuffix hc)
  have htrim : trim k.toList = trimLeft k.toList := by
    simpa [trim] using trimRight_append Arithmetic.blanks_nil hlast
  rw [toList_key, htrim]
  refine lowerFrom_of_lowerChar fun c hc => hk.lower c ?_
  exact hsuffix.mem ((List.dropWhile_suffix _).mem hc)

theorem dropWhile_mark_of_isKey (hk : IsKey k.toList) (n : Nat) :
    (List.replicate n '!' ++ k.toList).dropWhile (· == '!') = k.toList := by
  refine (Arithmetic.span_append k.toList ?_ ?_).2
  · simp
  · simpa using hk.first

/-- With a mark before it a key is a name of its own command. -/
theorem key_mark_append (hk : IsKey k.toList) : key ("!" ++ k) = k := by
  have hmark : ("!" ++ k).toList = '!' :: k.toList := String.toList_append
  have htrimmed : Trimmed ('!' :: k.toList) := by
    constructor
    · rintro c ⟨⟩
      rfl
    · intro c hc
      cases hcs : k.toList with
      | nil =>
        rw [hcs] at hc
        cases hc
        rfl
      | cons d ds =>
        rw [hcs, List.getLast?_cons_cons, ← hcs] at hc
        exact hk.last c hc
  rw [← String.toList_inj, toList_key, hmark, trim_of_trimmed htrimmed]
  rw [show ('!' :: k.toList).dropWhile (· == '!') = k.toList from dropWhile_mark_of_isKey hk 1]
  exact lowerFrom_of_lowerChar hk.lower

/-- Without one it is so exactly if no blank comes first. -/
theorem key_eq_self_iff (hk : IsKey k.toList) : key k = k ↔ ∀ c ∈ k.toList.head?, isBlank c = false := by
  rw [← String.toList_inj, toList_key_of_isKey hk]
  constructor
  · intro h
    have hle : k.toList.length ≤ (trimLeft k.toList).length := by
      calc k.toList.length
        _ = ((trimLeft k.toList).dropWhile (· == '!')).length := by rw [h]
        _ ≤ (trimLeft k.toList).length := (List.dropWhile_suffix _).length_le
    have hleft : trimLeft k.toList = k.toList := (List.dropWhile_suffix _).eq_of_length_le hle
    rw [← hleft]
    exact Arithmetic.head?_dropWhile_eq_false
  · intro hfirst
    have hleft : trimLeft k.toList = k.toList := trimLeft_append Arithmetic.blanks_nil hfirst
    rw [hleft]
    exact dropWhile_mark_of_isKey hk 0

end Command

namespace CommandTable

variable {σ : Type}

/-- The command that is found under a name is that of the registration. -/
structure Names (table : CommandTable σ) (name : String) (r : Registration σ) : Prop where
  contains : table.contains name = true
  dispatch : table.dispatch name = r.handler

theorem Records.names {history : List (Registration σ)} {table : CommandTable σ} {name : String}
    {r : Registration σ} (h : Records history table) (hr : Latest history r)
    (hkey : r.key = Command.key name) : Names table name r where
  contains := h.contains_iff.mpr ⟨r, hr.mem, hkey⟩
  dispatch := h.dispatch_of_latest hr hkey

variable [DieSource σ]

/-- What is registered stands under the key of some name. -/
theorem exists_name_of_mem_registrations {call : Call σ} {r : Registration σ} (h : r ∈ call.registrations) :
    ∃ name, Command.key name = r.key := by
  cases call with
  | register name description handler =>
    rw [Call.registrations, List.mem_singleton] at h
    exact ⟨name, by rw [h]⟩
  | activate responder =>
    obtain ⟨command, -, rfl⟩ := List.mem_map.mp h
    exact ⟨command.name, rfl⟩
  | dispatch | contains | list | size => cases h

/-- A command that is listed under a key is found under that key with a mark before it. Under the key itself it is
found if no blank comes first; otherwise a command with another key is found there, or none. -/
theorem names_of_mem_list (calls : List (Call σ)) (tray : Tray σ) {table : CommandTable σ} {k description : String}
    (htable : (run calls (.empty, tray)).2.1 = table) (h : (k, description) ∈ table.list) :
    ∃ r, Latest (calls.flatMap Call.registrations) r ∧ r.key = k ∧ r.description = description ∧
      Names table ("!" ++ k) r ∧ ((∀ c ∈ k.toList.head?, isBlank c = false) → Names table k r) ∧
      ((∃ c ∈ k.toList.head?, isBlank c = true) → ∀ s, table.find? k = some s → s.key ≠ k) := by
  have hrecords : Records (calls.flatMap Call.registrations) table := htable ▸ Records.empty.run calls tray
  obtain ⟨r, hr, rfl, rfl⟩ := (hrecords.lists.mem_iff k description).mp h
  have hform : Command.IsKey r.key.toList := by
    obtain ⟨call, -, hcall⟩ := List.mem_flatMap.mp hr.mem
    obtain ⟨name, hname⟩ := exists_name_of_mem_registrations hcall
    rw [← hname]
    exact Command.isKey_key name
  refine ⟨r, hr, rfl, rfl, ?_, ?_, ?_⟩
  · exact hrecords.names hr (Command.key_mark_append hform).symm
  · intro hfirst
    exact hrecords.names hr ((Command.key_eq_self_iff hform).mpr hfirst).symm
  · rintro ⟨c, hc, hblank⟩ s hs hkey
    have hsame : Command.key r.key = r.key := by
      rw [← (hrecords.find?_eq_some_iff.mp hs).2, hkey]
    have hfirst := (Command.key_eq_self_iff hform).mp hsame c hc
    exact absurd hblank (by simp [hfirst])

/-- A command that puts a word before its first argument. -/
def echo (word : String) : Handler Script := fun args tray => (.ok (word ++ " " ++ args.headD ""), tray)

/-- A name with a blank behind its mark, and the name without either. -/
def blankBehindMark : List (Call Script) := [.register "! X" "first" (echo "p"), .register "x" "second" (echo "q")]

theorem names_of_mem_list_two_names :
    let table := (run blankBehindMark (.empty, Tray.ofDice (Script.ofList []))).2.1
    (" x", "first") ∈ table.list ∧
      ∃ r, Latest (blankBehindMark.flatMap Call.registrations) r ∧ r.key = " x" ∧ r.description = "first" ∧
        Names table ("!" ++ " x") r ∧ ((∀ c ∈ " x".toList.head?, isBlank c = false) → Names table " x" r) ∧
        ((∃ c ∈ " x".toList.head?, isBlank c = true) → ∀ s, table.find? " x" = some s → s.key ≠ " x") := by
  have hlisted : (" x", "first") ∈ (run blankBehindMark (.empty, Tray.ofDice (Script.ofList []))).2.1.list := by
    decide +kernel
  exact ⟨hlisted, names_of_mem_list blankBehindMark (Tray.ofDice (Script.ofList [])) rfl hlisted⟩

/-- Under its own key, which is listed, the command is not found. -/
theorem not_contains_listed_key :
    let tray := Tray.ofDice (Script.ofList [])
    let table := (run [.register "! x" "d" (echo "p")] (.empty, tray)).2.1
    table.list = [(" x", "d")] ∧ table.contains " x" = false ∧
      table.dispatch " x" ["y"] tray = (.error (.unknownCommand " x"), tray) := by
  intro tray table
  have hlisted : table.list = [(" x", "d")] ∧ table.contains " x" = false := by decide +kernel
  exact ⟨hlisted.1, hlisted.2, rfl⟩

end CommandTable

end Tabletop

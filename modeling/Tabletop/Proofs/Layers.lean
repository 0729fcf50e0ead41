import Mathlib.Data.List.Basic
import Tabletop.Settings.Basic

/-!
Settings and the values of a layer that has one for each of the keys. Main statement: settings are made of these
values and of nothing else, and a fault is about a key whose value does not fit it.
-/

namespace Tabletop

namespace Json

def IsObject : Json → Prop
  | object _ => True
  | null | bool _ | number _ | string _ | list _ => False

/-- A name in the form of an object, with nothing but `null` as its only member. -/
def IsVariant (v : Json) : Prop := ∃ name, v = .object [(name, .null)]

theorem IsVariant.isObject {v : Json} (h : v.IsVariant) : v.IsObject := by
  obtain ⟨name, rfl⟩ := h
  trivial

theorem variantName?_eq_some_iff {v : Json} {name : String} (hv : ¬v.IsVariant) :
    v.variantName? = some name ↔ v = .string name := by
  constructor
  · intro h
    unfold variantName? at h
    split at h
    · cases h
      rfl
    · exact absurd ⟨_, rfl⟩ hv
    · cases h
  · rintro rfl
    rfl

end Json

namespace MarkupChoice

theorem ofName?_eq_some_iff {t : String} {choice : MarkupChoice} : ofName? t = some choice ↔ t = choice.name := by
  constructor
  · intro h
    unfold ofName? at h
    split at h <;> cases h <;> rfl
  · rintro rfl
    exact ofName?_name choice

end MarkupChoice

namespace Settings

/-- The keys of settings. -/
def keys : List String := (entries {}).map Prod.fst

theorem map_fst_entries (s : Settings) : s.entries.map Prod.fst = keys := rfl

theorem fst_mem_keys {s : Settings} {e : String × Json} (h : e ∈ s.entries) : e.1 ∈ keys :=
  s.map_fst_entries ▸ List.mem_map_of_mem h

/-- `Fits key v`: the value is of the kind that the key takes. -/
inductive Fits : String → Json → Prop
  | flag {key : String} (b : Bool) :
      key ∈ ["collapsible", "log_json", "multiline", "spoilers"] → Fits key (.bool b)
  | text (t : String) : Fits "log_filter" (.string t)
  | markup {t : String} : t ∈ ["markdown", "plain"] → Fits "formatter" (.string t)

theorem Fits.cases {key : String} {v : Json} (h : Fits key v) :
    (key ∈ ["collapsible", "log_json", "multiline", "spoilers"] ∧ ∃ b, v = .bool b) ∨
      (key = "log_filter" ∧ ∃ t, v = .string t) ∨
        (key = "formatter" ∧ ∃ choice : MarkupChoice, v = .string choice.name) := by
  cases h with
  | flag b hkey => exact .inl ⟨hkey, b, rfl⟩
  | text t => exact .inr (.inl ⟨rfl, t, rfl⟩)
  | markup ht =>
    refine .inr (.inr ⟨rfl, ?_⟩)
    rcases List.mem_pair.mp ht with rfl | rfl
    · exact ⟨.markdown, rfl⟩
    · exact ⟨.plain, rfl⟩

theorem fits_of_mem_entries (s : Settings) : ∀ e ∈ s.entries, Fits e.1 e.2 := by
  have hmarkup : s.markup.name ∈ ["markdown", "plain"] := by cases s.markup <;> decide
  have hflag (key : String) (b : Bool) (h : key ∈ ["collapsible", "log_json", "multiline", "spoilers"]) :
      Fits key (.bool b) := .flag b h
  simp only [entries, List.forall_mem_cons]
  exact ⟨hflag _ _ (by decide), .markup hmarkup, .text _, hflag _ _ (by decide), hflag _ _ (by decide),
    hflag _ _ (by decide), List.forall_mem_nil _⟩

/-- The key that a fault is about. -/
def Fault.key? : Fault → Option String
  | malformed => none
  | invalidType key => some key
  | unknownVariant key => some key

section Values

variable {layer : Layer} {key : String} {v : Json} {s : Settings} {fault : Fault}

/-- `Settles key v encode read`: the reader of a key succeeds just where the value is one that it writes, and its
faults are about this key. -/
structure Settles {α : Type} (key : String) (v : Json) (encode : α → Json) (read : Except Fault α) : Prop where
  eq_ok_iff : ∀ a, read = .ok a ↔ v = encode a
  key?_of_error : ∀ fault, read = .error fault → fault.key? = some key

theorem settles_flag {default : Bool} (h : layer.lookup key = some v) :
    Settles key v Json.bool (flag layer key default) := by
  rw [flag, h]
  cases v <;> exact ⟨by simp, by simp [Fault.key?, eq_comm]⟩

theorem settles_text {default : String} (h : layer.lookup key = some v) :
    Settles key v Json.string (text layer key default) := by
  rw [text, h]
  cases v <;> exact ⟨by simp, by simp [Fault.key?, eq_comm]⟩

theorem settles_markupChoice {default : MarkupChoice} (h : layer.lookup key = some v) (hv : ¬v.IsVariant) :
    Settles key v (fun choice => Json.string choice.name) (markupChoice layer key default) := by
  rw [markupChoice, h]
  simp only
  cases hname : v.variantName? with
  | none =>
    refine ⟨fun choice => ⟨nofun, ?_⟩, by simp [Fault.key?, eq_comm]⟩
    rintro rfl
    cases hname
  | some t =>
    obtain rfl := (Json.variantName?_eq_some_iff hv).mp hname
    have hchoice (choice : MarkupChoice) :
        Json.string t = Json.string choice.name ↔ MarkupChoice.ofName? t = some choice := by
      rw [Json.string.injEq, MarkupChoice.ofName?_eq_some_iff]
    cases ht : MarkupChoice.ofName? t <;> exact ⟨by simp [hchoice, ht], by simp [ht, Fault.key?, eq_comm]⟩

/-- A reader does not fail on a value that fits its key. -/
theorem Settles.not_fits {α : Type} {encode : α → Json} {read : Except Fault α} (h : Settles key v encode read)
    (hfits : Fits key v → ∃ a, v = encode a) (herror : read = .error fault) : ¬Fits key v := by
  intro hv
  obtain ⟨a, ha⟩ := hfits hv
  rw [(h.eq_ok_iff a).mpr ha] at herror
  cases herror

theorem bind_eq_ok_iff {α β : Type} {read : Except Fault α} {next : α → Except Fault β} {b : β} :
    (read >>= next) = .ok b ↔ ∃ a, read = .ok a ∧ next a = .ok b := by
  cases read <;> simp [bind, Except.bind]

theorem bind_eq_error_iff {α β : Type} {read : Except Fault α} {next : α → Except Fault β} :
    (read >>= next) = .error fault ↔ read = .error fault ∨ ∃ a, read = .ok a ∧ next a = .error fault := by
  cases read <;> simp [bind, Except.bind]

section Checks

/-! Layers in which each of the keys has a value. -/

variable (hkeys : ∀ key ∈ keys, ∃ v : Json, layer.lookup key = some v ∧ ¬v.IsVariant)
include hkeys

theorem ofLayer_eq_ok_iff : ofLayer layer = .ok s ↔ ∀ e ∈ s.entries, layer.lookup e.1 = some e.2 := by
  obtain ⟨spoilers, multiline, collapsible, markup, logFilter, logJson⟩ := s
  simp only [keys, entries, List.map_cons, List.map_nil, List.forall_mem_cons] at hkeys ⊢
  obtain ⟨⟨v₁, h₁, -⟩, ⟨v₂, h₂, hname⟩, ⟨v₃, h₃, -⟩, ⟨v₄, h₄, -⟩, ⟨v₅, h₅, -⟩, ⟨v₆, h₆, -⟩, -⟩ := hkeys
  simp only [ofLayer, bind_eq_ok_iff, (settles_flag h₁).eq_ok_iff, (settles_markupChoice h₂ hname).eq_ok_iff,
    (settles_text h₃).eq_ok_iff, (settles_flag h₄).eq_ok_iff, (settles_flag h₅).eq_ok_iff,
    (settles_flag h₆).eq_ok_iff, h₁, h₂, h₃, h₄, h₅, h₆, Option.some.injEq]
  constructor
  · rintro ⟨_, rfl, _, rfl, _, rfl, _, rfl, _, rfl, _, rfl, hs⟩
    cases hs
    exact ⟨rfl, rfl, rfl, rfl, rfl, rfl, List.forall_mem_nil _⟩
  · rintro ⟨rfl, rfl, rfl, rfl, rfl, rfl, -⟩
    exact ⟨_, rfl, _, rfl, _, rfl, _, rfl, _, rfl, _, rfl, rfl⟩

theorem exists_of_ofLayer_eq_error (h : ofLayer layer = .error fault) :
    ∃ key ∈ keys, ∃ v, layer.lookup key = some v ∧ ¬Fits key v ∧ fault.key? = some key := by
  simp only [keys, entries, List.map_cons, List.map_nil, List.forall_mem_cons] at hkeys
  obtain ⟨⟨v₁, h₁, -⟩, ⟨v₂, h₂, hname⟩, ⟨v₃, h₃, -⟩, ⟨v₄, h₄, -⟩, ⟨v₅, h₅, -⟩, ⟨v₆, h₆, -⟩, -⟩ := hkeys
  have hfault {α : Type} {key : String} {v : Json} {encode : α → Json} {read : Except Fault α} (hkey : key ∈ keys)
      (hv : layer.lookup key = some v) (hread : Settles key v encode read)
      (hfits : Fits key v → ∃ a, v = encode a) (herror : read = .error fault) :
      ∃ key ∈ keys, ∃ v, layer.lookup key = some v ∧ ¬Fits key v ∧ fault.key? = some key :=
    ⟨key, hkey, v, hv, hread.not_fits hfits herror, hread.key?_of_error fault herror⟩
  simp only [ofLayer, bind_eq_error_iff] at h
  rcases h with h | ⟨-, -, h | ⟨-, -, h | ⟨-, -, h | ⟨-, -, h | ⟨-, -, h | ⟨-, -, ⟨⟩⟩⟩⟩⟩⟩⟩
  · exact hfault (by decide) h₁ (settles_flag h₁) (fun h => by simpa using h.cases) h
  · exact hfault (by decide) h₂ (settles_markupChoice h₂ hname) (fun h => by simpa using h.cases) h
  · exact hfault (by decide) h₃ (settles_text h₃) (fun h => by simpa using h.cases) h
  · exact hfault (by decide) h₄ (settles_flag h₄) (fun h => by simpa using h.cases) h
  · exact hfault (by decide) h₅ (settles_flag h₅) (fun h => by simpa using h.cases) h
  · exact hfault (by decide) h₆ (settles_flag h₆) (fun h => by simpa using h.cases) h

end Checks

/-- Settings are made of nothing but the values of their keys. -/
theorem ofLayer_congr {layer' : Layer} (h : ∀ key ∈ keys, layer.lookup key = layer'.lookup key) :
    ofLayer layer = ofLayer layer' := by
  simp only [keys, entries, List.map_cons, List.map_nil, List.forall_mem_cons] at h
  obtain ⟨h₁, h₂, h₃, h₄, h₅, h₆, -⟩ := h
  simp only [ofLayer, flag, text, markupChoice, h₁, h₂, h₃, h₄, h₅, h₆]

end Values

end Settings

end Tabletop

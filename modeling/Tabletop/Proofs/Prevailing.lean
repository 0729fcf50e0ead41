import Tabletop.Proofs.Layers
import Tabletop.Proofs.Requests
import Tabletop.Settings.Load

/-!
Which values settings are made of. A variable of the environment prevails over the file and the file over the
defaults, key by key, and only the values that prevail are checked. Of the library that reads the layers no more is
taken for granted than that it puts one over another key by key and lets each variable set its own key. Main
statement: settings load just if the value that prevails fits its key, for each of the keys, and then they hold these
values; if they do not load, the fault names a key whose value does not fit. What else the environment and the file
say makes no difference.
-/

namespace Tabletop.Settings

/-- `Names opening name key`: the name is the opening and the key, in any letter case. -/
def Names (opening name key : String) : Prop :=
  key ≠ "" ∧ name.toList.map Char.toLower = opening.toList.map Char.toLower ++ key.toList

/-- Visible characters without a point, which names of variables consist of unless they lead into objects. -/
def IsPlainName (name : String) : Prop := ∀ c ∈ name.toList, Text.isBlank c = false ∧ c ≠ '.'

instance (name : String) : Decidable (IsPlainName name) :=
  decidable_of_iff (name.toList.all (fun c => !Text.isBlank c && c != '.') = true) (by simp [IsPlainName])

namespace Library

variable {library : Library} {opening : String} {environment : List (String × String)}

/-- Environments in which no two variables set the same key and none sets a part of a value. -/
structure Separate (library : Library) (opening : String) (environment : List (String × String)) : Prop where
  distinct : environment.Pairwise fun e e' =>
    ∀ key, library.key? opening e.1 = some key → library.key? opening e'.1 ≠ some key
  undotted : ∀ e ∈ environment, ∀ key, library.key? opening e.1 = some key → '.' ∉ e.1.toList

/-- What the layers of settings rely on. -/
structure Lawful (library : Library) : Prop where
  /-- The higher layer prevails, key by key; only objects are merged further. -/
  lookup_merge : ∀ low high key, (∀ v, low.lookup key = some v → ¬v.IsObject) →
    (library.merge low high).lookup key = (high.lookup key).or (low.lookup key)
  /-- Each variable sets its own key. -/
  lookup_ofEnvironment : ∀ opening environment, library.Separate opening environment → ∀ key v,
    (library.ofEnvironment opening environment).lookup key = some v ↔
      ∃ e ∈ environment, library.key? opening e.1 = some key ∧ library.value e.2 = v
  /-- The key is what stands behind the opening. -/
  key?_eq_some_iff : ∀ opening name key, IsPlainName opening → IsPlainName name →
    (library.key? opening name = some key ↔ Names opening name key)
  /-- The text of a variable has no word for `null`. -/
  not_isVariant_value : ∀ text, ¬(library.value text).IsVariant

/-- Variables with plain names that differ in more than letter case set different keys. -/
theorem Lawful.separate (h : library.Lawful) (hopening : IsPlainName opening)
    (hplain : ∀ e ∈ environment, IsPlainName e.1)
    (hnames : environment.Pairwise fun e e' => e.1.toList.map Char.toLower ≠ e'.1.toList.map Char.toLower) :
    library.Separate opening environment where
  distinct := by
    refine hnames.imp_of_mem ?_
    intro e e' he he' hne key hkey hkey'
    obtain ⟨-, hname⟩ := (h.key?_eq_some_iff opening e.1 key hopening (hplain e he)).mp hkey
    obtain ⟨-, hname'⟩ := (h.key?_eq_some_iff opening e'.1 key hopening (hplain e' he')).mp hkey'
    exact hne (hname.trans hname'.symm)
  undotted := by
    intro e he key _ hpoint
    exact (hplain e he '.' hpoint).2 rfl

end Library

section Sources

variable {library : Library} {file? : Option String} {file : Layer} {environment : List (String × String)}
  {key : String} {v w : Json}

/-- What a file says, of which none is there to say nothing. -/
inductive Holds (library : Library) : Option String → Layer → Prop
  | missing : Holds library none []
  | text {text : String} {file : Layer} : library.ofFile? text = some file → Holds library (some text) file

/-- `Prevails library file environment key v`: the value is the one that counts for the key. -/
inductive Prevails (library : Library) (file : Layer) (environment : List (String × String)) (key : String) :
    Json → Prop
  | fromEnvironment {e : String × String} : e ∈ environment → library.key? variableOpening e.1 = some key →
      Prevails library file environment key (library.value e.2)
  | fromFile {v : Json} : (∀ e ∈ environment, library.key? variableOpening e.1 ≠ some key) →
      file.lookup key = some v → Prevails library file environment key v
  | fromDefaults {v : Json} : (∀ e ∈ environment, library.key? variableOpening e.1 ≠ some key) →
      file.lookup key = none → (entries {}).lookup key = some v → Prevails library file environment key v

theorem Holds.load_eq (h : Holds library file? file) :
    library.load file? environment = ofLayer (library.layer file environment) := by
  cases h with
  | missing => rfl
  | text h => rw [Library.load, Option.elim_some, h]

theorem not_isObject_of_lookup {layer : Layer} (hlayer : ∀ e ∈ layer, ¬e.2.IsObject)
    (h : layer.lookup key = some v) : ¬v.IsObject := by
  obtain ⟨before, after, rfl, -⟩ := List.lookup_eq_some_iff.mp h
  exact hlayer (key, v) (by simp)

theorem not_isObject_of_defaults (h : (entries {}).lookup key = some v) : ¬v.IsObject := by
  refine not_isObject_of_lookup ?_ h
  simp only [entries, List.forall_mem_cons]
  exact ⟨id, id, id, id, id, id, List.forall_mem_nil _⟩

/-- Each of the keys has a value, if only its default. -/
theorem exists_prevails (hkey : key ∈ keys) : ∃ v, Prevails library file environment key v := by
  by_cases hset : ∃ e ∈ environment, library.key? variableOpening e.1 = some key
  · obtain ⟨e, he, hname⟩ := hset
    exact ⟨_, .fromEnvironment he hname⟩
  · have hunset : ∀ e ∈ environment, library.key? variableOpening e.1 ≠ some key := by
      simpa using hset
    cases hfile : file.lookup key with
    | some v => exact ⟨v, .fromFile hunset hfile⟩
    | none =>
      have hdefaults : ∀ key ∈ keys, ∃ v, (entries {}).lookup key = some v := by
        simp only [keys, entries, List.map_cons, List.map_nil, List.forall_mem_cons]
        exact ⟨⟨_, rfl⟩, ⟨_, rfl⟩, ⟨_, rfl⟩, ⟨_, rfl⟩, ⟨_, rfl⟩, ⟨_, rfl⟩, List.forall_mem_nil _⟩
      obtain ⟨v, hv⟩ := hdefaults key hkey
      exact ⟨v, .fromDefaults hunset hfile hv⟩

section Laws

variable (hlaws : library.Lawful) (hseparate : library.Separate variableOpening environment)
  (hflat : ∀ key ∈ keys, ∀ v, file.lookup key = some v → ¬v.IsObject)
include hlaws hseparate hflat

theorem prevails_iff (hkey : key ∈ keys) :
    Prevails library file environment key v ↔ (library.layer file environment).lookup key = some v := by
  have hlow : (library.merge (entries {}) file).lookup key = (file.lookup key).or ((entries {}).lookup key) :=
    hlaws.lookup_merge _ _ key fun v => not_isObject_of_defaults
  have hlayer : (library.layer file environment).lookup key =
      ((library.ofEnvironment variableOpening environment).lookup key).or
        ((file.lookup key).or ((entries {}).lookup key)) := by
    rw [Library.layer, hlaws.lookup_merge, hlow]
    intro v hv
    rw [hlow, Option.or_eq_some_iff] at hv
    rcases hv with hv | ⟨-, hv⟩
    · exact hflat key hkey v hv
    · exact not_isObject_of_defaults hv
  have hset := hlaws.lookup_ofEnvironment variableOpening environment hseparate key
  have hunset : (library.ofEnvironment variableOpening environment).lookup key = none ↔
      ∀ e ∈ environment, library.key? variableOpening e.1 ≠ some key := by
    rw [Option.eq_none_iff_forall_ne_some]
    constructor
    · intro h e he hname
      exact h _ ((hset _).mpr ⟨e, he, hname, rfl⟩)
    · intro h v hv
      obtain ⟨e, he, hname, -⟩ := (hset v).mp hv
      exact h e he hname
  rw [hlayer]
  simp only [Option.or_eq_some_iff, hset, hunset]
  constructor
  · intro h
    cases h with
    | fromEnvironment he hname => exact .inl ⟨_, he, hname, rfl⟩
    | fromFile hnone hfile => exact .inr ⟨hnone, .inl hfile⟩
    | fromDefaults hnone hfile hdefault => exact .inr ⟨hnone, .inr ⟨hfile, hdefault⟩⟩
  · rintro (⟨e, he, hname, rfl⟩ | ⟨hnone, hfile | ⟨hfile, hdefault⟩⟩)
    · exact .fromEnvironment he hname
    · exact .fromFile hnone hfile
    · exact .fromDefaults hnone hfile hdefault

theorem existsUnique_prevails (hkey : key ∈ keys) : ∃! v, Prevails library file environment key v := by
  obtain ⟨v, hv⟩ : ∃ v, Prevails library file environment key v := exists_prevails hkey
  refine ⟨v, hv, fun w hw => ?_⟩
  rw [prevails_iff hlaws hseparate hflat hkey] at hv hw
  exact Option.some.inj (hw.symm.trans hv)

omit hseparate in
theorem Prevails.not_isVariant (h : Prevails library file environment key v) (hkey : key ∈ keys) :
    ¬v.IsVariant := by
  cases h with
  | fromEnvironment => exact hlaws.not_isVariant_value _
  | fromFile _ hfile => exact fun hv => hflat key hkey v hfile hv.isObject
  | fromDefaults _ _ hdefault => exact fun hv => not_isObject_of_defaults hdefault hv.isObject

end Laws

end Sources

/-- What settings are loaded from an environment and a file that can be read, or is missing, and gives no object to any
of the keys, whatever library reads them. A variable sets the key behind the opening of its name, in any letter case,
and each key has one value that prevails. Settings load just if all these values fit their keys, and then they are
these values; a fault names a key whose value does not fit. All that matters of the environment and the file are these
values, so neither a value for an unknown key nor one that does not prevail makes any difference. -/
theorem load_prevailing {library : Library} (hlaws : library.Lawful) {file? : Option String} {file : Layer}
    (hfile : Holds library file? file) (hflat : ∀ key ∈ keys, ∀ v, file.lookup key = some v → ¬v.IsObject)
    {environment : List (String × String)} (hseparate : library.Separate variableOpening environment) :
    (∀ e ∈ environment, IsPlainName e.1 → ∀ key,
      library.key? variableOpening e.1 = some key ↔ Names variableOpening e.1 key) ∧
    (∀ key ∈ keys, ∃! v, Prevails library file environment key v) ∧
    ((∃ s, library.load file? environment = .ok s) ↔
      ∀ key ∈ keys, ∃ v, Prevails library file environment key v ∧ Fits key v) ∧
    (∀ s, library.load file? environment = .ok s ↔ ∀ e ∈ s.entries, Prevails library file environment e.1 e.2) ∧
    (∀ fault, library.load file? environment = .error fault →
      ∃ key ∈ keys, ∃ v, Prevails library file environment key v ∧ ¬Fits key v ∧ fault.key? = some key) ∧
    (∀ file?' file' environment', Holds library file?' file' →
      (∀ key ∈ keys, ∀ v, file'.lookup key = some v → ¬v.IsObject) → library.Separate variableOpening environment' →
        (∀ key ∈ keys, ∀ v, Prevails library file environment key v ↔ Prevails library file' environment' key v) →
          library.load file?' environment' = library.load file? environment) := by
  have hprevails (key : String) (hkey : key ∈ keys) (v : Json) : Prevails library file environment key v ↔
      (library.layer file environment).lookup key = some v := prevails_iff hlaws hseparate hflat hkey
  have hkeys : ∀ key ∈ keys, ∃ v : Json,
      (library.layer file environment).lookup key = some v ∧ ¬v.IsVariant := by
    intro key hkey
    obtain ⟨v, hv⟩ : ∃ v, Prevails library file environment key v := exists_prevails hkey
    exact ⟨v, (hprevails key hkey v).mp hv, hv.not_isVariant hlaws hflat hkey⟩
  have hok (s : Settings) : library.load file? environment = .ok s ↔
      ∀ e ∈ s.entries, Prevails library file environment e.1 e.2 := by
    rw [hfile.load_eq, ofLayer_eq_ok_iff hkeys]
    exact forall₂_congr fun e he => (hprevails e.1 (fst_mem_keys he) e.2).symm
  have herror (fault : Fault) (h : library.load file? environment = .error fault) :
      ∃ key ∈ keys, ∃ v, Prevails library file environment key v ∧ ¬Fits key v ∧ fault.key? = some key := by
    obtain ⟨key, hkey, v, hv, hfault⟩ := exists_of_ofLayer_eq_error hkeys (hfile.load_eq ▸ h)
    exact ⟨key, hkey, v, (hprevails key hkey v).mpr hv, hfault⟩
  have hunique {key : String} (hkey : key ∈ keys) : ∃! v, Prevails library file environment key v :=
    existsUnique_prevails hlaws hseparate hflat hkey
  refine ⟨?_, fun key => hunique, ?_, hok, herror, ?_⟩
  · intro e _ hplain key
    exact hlaws.key?_eq_some_iff variableOpening e.1 key (by decide +kernel) hplain
  · constructor
    · intro ⟨s, hs⟩ key hkey
      obtain ⟨e, hmem, rfl⟩ := List.mem_map.mp (s.map_fst_entries ▸ hkey)
      exact ⟨e.2, (hok s).mp hs e hmem, fits_of_mem_entries s e hmem⟩
    · intro h
      cases hresult : library.load file? environment with
      | ok s => exact ⟨s, rfl⟩
      | error fault =>
        obtain ⟨key, hkey, v, hv, hnot, -⟩ := herror fault hresult
        obtain ⟨w, hw, hfits⟩ := h key hkey
        exact absurd ((hunique hkey).unique hw hv ▸ hfits) hnot
  · intro file?' file' environment' hfile' hflat' hseparate' h
    rw [hfile.load_eq, hfile'.load_eq]
    refine ofLayer_congr fun key hkey => Option.ext fun v => ?_
    rw [← prevails_iff hlaws hseparate' hflat' hkey, ← hprevails key hkey v, h key hkey]

section Usual

variable {opening name key : String} {environment : List (String × String)} {v : Json}

theorem variableKey?_eq_some_iff (hname : IsPlainName name) :
    variableKey? opening name = some key ↔ Names opening name key := by
  have htrim (n : Nat) : Text.trim (name.toList.drop n) = name.toList.drop n :=
    Text.trim_of_trimmed (CommandLine.trimmed_of_visible fun c hc => (hname c (List.mem_of_mem_drop hc)).1)
  have hwhole : Text.trim name.toList = name.toList := htrim 0
  have hsplit : name.toList.map Char.toLower = (name.toList.take opening.length).map Char.toLower ++
      (name.toList.drop opening.length).map Char.toLower := by
    rw [← List.map_append, List.take_append_drop]
  simp only [variableKey?]
  rw [hwhole, htrim]
  split
  · next hopening =>
    rw [Names, hsplit, hopening, List.append_cancel_left_eq]
    cases name.toList.drop opening.length with
    | nil =>
      refine ⟨nofun, fun ⟨hne, hnil⟩ => absurd ?_ hne⟩
      exact String.toList_inj.mp hnil.symm
    | cons c cs =>
      simp only [Option.some.injEq, ← String.toList_inj, String.toList_ofList]
      refine ⟨fun h => ⟨?_, h⟩, And.right⟩
      rintro rfl
      cases h
  · next hopening =>
    refine ⟨nofun, fun h => absurd ?_ hopening⟩
    have htake := congrArg (List.take opening.length) h.2
    rwa [List.take_left' (by rw [List.length_map, String.length_toList]), ← List.map_take] at htake

theorem lookup_ofEnvironment_iff (h : Library.usual.Separate opening environment) :
    (ofEnvironment opening environment).lookup key = some v ↔
      ∃ e ∈ environment, variableKey? opening e.1 = some key ∧ variableValue e.2 = v := by
  obtain ⟨hdistinct, -⟩ := h
  induction environment with
  | nil => simp [ofEnvironment]
  | cons e environment ih =>
    obtain ⟨hfirst, hothers⟩ := List.pairwise_cons.mp hdistinct
    have hcons : ofEnvironment opening (e :: environment) =
        ((variableKey? opening e.1).map fun key => (key, variableValue e.2)).toList ++
          ofEnvironment opening environment := by
      cases hkey : variableKey? opening e.1 <;> simp [ofEnvironment, hkey]
    rw [hcons, List.lookup_append, List.exists_mem_cons_iff, ← ih hothers]
    cases hkey : variableKey? opening e.1 with
    | none => simp
    | some key' =>
      by_cases hsame : key' = key
      · subst hsame
        have hnone : (ofEnvironment opening environment).lookup key' ≠ some v := by
          intro hv
          obtain ⟨e', he', hkey', -⟩ := (ih hothers).mp hv
          exact hfirst e' he' key' hkey hkey'
        simp [hnone]
      · simp [hsame, List.lookup_cons, beq_eq_false_iff_ne.mpr (Ne.symm hsame)]

theorem lawful_usual : Library.usual.Lawful where
  lookup_merge low high key _ := by
    simp [Library.usual, List.lookup_append]
  lookup_ofEnvironment opening environment h key v := lookup_ofEnvironment_iff h
  key?_eq_some_iff opening name key _ := variableKey?_eq_some_iff
  not_isVariant_value text := by
    simp only [Library.usual, variableValue]
    repeat' split
    all_goals rintro ⟨name, ⟨⟩⟩

end Usual

/-- An unknown markup in the file does not matter where a variable sets another, whatever the case of its name. -/
theorem load_prevailing_variable_over_file :
    Library.usual.Lawful ∧
      Holds Library.usual (some "formatter = \"grand\"\nspoilers = true\n")
        [("formatter", .string "grand"), ("spoilers", .bool true)] ∧
      Library.usual.Separate variableOpening [("logidice_Formatter", "plain"), ("LOGIDICE_SHOUTING", "7")] ∧
      Library.usual.load (some "formatter = \"grand\"\nspoilers = true\n")
          [("logidice_Formatter", "plain"), ("LOGIDICE_SHOUTING", "7")] =
        .ok { spoilers := true, markup := .plain } := by
  have hfile : Holds Library.usual (some "formatter = \"grand\"\nspoilers = true\n")
      [("formatter", .string "grand"), ("spoilers", .bool true)] := .text (by rfl)
  have hflat : ∀ key ∈ keys, ∀ v, List.lookup key [("formatter", Json.string "grand"), ("spoilers", .bool true)] =
      some v → ¬v.IsObject := by
    intro key _ v
    refine not_isObject_of_lookup ?_
    simp only [List.forall_mem_cons]
    exact ⟨id, id, List.forall_mem_nil _⟩
  have hseparate : Library.usual.Separate variableOpening
      [("logidice_Formatter", "plain"), ("LOGIDICE_SHOUTING", "7")] :=
    lawful_usual.separate (by decide +kernel) (by decide +kernel) (by decide +kernel)
  refine ⟨lawful_usual, hfile, hseparate, ?_⟩
  obtain ⟨-, -, -, hok, -⟩ := load_prevailing lawful_usual hfile hflat hseparate
  have hlayer : ∀ e ∈ entries { spoilers := true, markup := .plain },
      (Library.usual.layer [("formatter", .string "grand"), ("spoilers", .bool true)]
        [("logidice_Formatter", "plain"), ("LOGIDICE_SHOUTING", "7")]).lookup e.1 = some e.2 := by
    simp only [entries, List.forall_mem_cons]
    exact ⟨rfl, rfl, rfl, rfl, rfl, rfl, List.forall_mem_nil _⟩
  rw [hok]
  intro e he
  exact (prevails_iff lawful_usual hseparate hflat (fst_mem_keys he)).mpr (hlayer e he)

end Tabletop.Settings

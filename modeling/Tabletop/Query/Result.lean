/-!
Results of queries. A result repeats the query and gives its total; it has one entry per pool that was
rolled, and if the query asked for repetitions also the results of these. The entries are of any type: they
are rolls as long as somebody may still look at the dice, and lines of text once they are to be shown.
-/

namespace Tabletop

inductive Result (α : Type) where
  | leaf (input : String) (total : Float) (entries : List α)
  | repeated (input : String) (total : Float) (entries : List α) (parts : List (Result α))

namespace Result

variable {α β : Type}

def input : Result α → String
  | leaf input _ _ => input
  | repeated input _ _ _ => input

def total : Result α → Float
  | leaf _ total _ => total
  | repeated _ total _ _ => total

/-- The entries of the result itself, not those of its repetitions. -/
def entries : Result α → List α
  | leaf _ _ entries => entries
  | repeated _ _ entries _ => entries

def parts? : Result α → Option (List (Result α))
  | leaf .. => none
  | repeated _ _ _ parts => some parts

/-- The zero result, for which nothing was rolled. -/
def empty (input : String) : Result α := leaf input 0 []

instance : Inhabited (Result α) := ⟨empty ""⟩

/-- What holds of a repetition if it holds of its parts holds of every result. -/
@[elab_as_elim, induction_eliminator]
theorem induction {motive : Result α → Prop}
    (leaf : ∀ input total entries, motive (.leaf input total entries))
    (repeated : ∀ input total entries parts, (∀ part ∈ parts, motive part) →
      motive (.repeated input total entries parts)) : ∀ r, motive r
  | .leaf input total entries => leaf input total entries
  | .repeated input total entries parts =>
    repeated input total entries parts fun part _ => induction leaf repeated part

mutual

/-- The same result with other entries. -/
def map (f : α → β) : Result α → Result β
  | leaf input total entries => leaf input total (entries.map f)
  | repeated input total entries parts => repeated input total (entries.map f) (mapAll f parts)

def mapAll (f : α → β) : List (Result α) → List (Result β)
  | [] => []
  | r :: rs => map f r :: mapAll f rs

end

mutual

/-- The entries of the results that are not repetitions, from left to right. -/
def leafEntries : Result α → List α
  | leaf _ _ entries => entries
  | repeated _ _ _ parts => leafEntriesAll parts

def leafEntriesAll : List (Result α) → List α
  | [] => []
  | r :: rs => leafEntries r ++ leafEntriesAll rs

end

theorem mapAll_eq (f : α → β) (rs : List (Result α)) : mapAll f rs = rs.map (map f) := by
  induction rs with
  | nil => rfl
  | cons r rs ih => rw [mapAll, ih, List.map_cons]

theorem leafEntriesAll_eq (rs : List (Result α)) :
    leafEntriesAll rs = rs.flatMap leafEntries := by
  induction rs with
  | nil => rfl
  | cons r rs ih => rw [leafEntriesAll, ih, List.flatMap_cons]

@[simp] theorem map_leaf (f : α → β) (input : String) (total : Float) (entries : List α) :
    (leaf input total entries).map f = leaf input total (entries.map f) := rfl

@[simp] theorem map_repeated (f : α → β) (input : String) (total : Float) (entries : List α)
    (parts : List (Result α)) :
    (repeated input total entries parts).map f =
      repeated input total (entries.map f) (parts.map (map f)) := by
  rw [map, mapAll_eq]

@[simp] theorem leafEntries_repeated (input : String) (total : Float) (entries : List α)
    (parts : List (Result α)) :
    (repeated input total entries parts).leafEntries = parts.flatMap leafEntries := by
  rw [leafEntries, leafEntriesAll_eq]

end Result

end Tabletop

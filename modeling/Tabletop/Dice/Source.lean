/-!
Sources of dice. A source hands out one face per draw and knows how many draws beyond the size of a pool a
roll may ask of it before the pool counts as endless. A script hands out given faces in order and then for
ever the last of them; each face is brought within the die that is rolled, while the script remembers the
face as it was given. Random dice draw evenly from a generator.
-/

namespace Tabletop

class DieSource (σ : Type) where
  /-- The face that comes up on a die with that many sides, and the source afterwards. -/
  draw : (sides : Nat) → σ → Nat × σ
  /-- How many draws a roll may make beyond the dice that it starts with. -/
  patience : σ → Nat

export DieSource (draw patience)

/-- The faces to come, and the face that is repeated when none is left. -/
structure Script where
  faces : List Nat
  repeated : Nat
  deriving DecidableEq, Repr

/-- A face on a die with that many sides; a die has at least one. -/
def clampFace (sides face : Nat) : Nat := max 1 (min face (max sides 1))

namespace Script

def ofList (faces : List Nat) : Script := ⟨faces, 1⟩

def always (face : Nat) : Script := ofList [face]

def remaining (s : Script) : Nat := s.faces.length

/-- The face that the next draw starts from, and the script afterwards. -/
def next : Script → Nat × Script
  | ⟨[], r⟩ => (r, ⟨[], r⟩)
  | ⟨f :: fs, _⟩ => (f, ⟨fs, f⟩)

/-- After its last given face a script repeats itself, so a pool that still grows then grows for ever. -/
instance : DieSource Script where
  draw sides s := (clampFace sides s.next.1, s.next.2)
  patience := remaining

@[simp] theorem next_nil (r : Nat) : next ⟨[], r⟩ = (r, ⟨[], r⟩) := rfl
@[simp] theorem next_cons (f r : Nat) (fs : List Nat) : next ⟨f :: fs, r⟩ = (f, ⟨fs, f⟩) := rfl

theorem draw_eq (sides : Nat) (s : Script) : draw sides s = (clampFace sides s.next.1, s.next.2) := rfl

@[simp] theorem patience_eq (s : Script) : patience s = s.remaining := rfl

theorem remaining_next (s : Script) : s.next.2.remaining = s.remaining - 1 := by
  rcases s with ⟨_ | ⟨f, fs⟩, r⟩ <;> simp [remaining]

end Script

theorem one_le_clampFace (sides face : Nat) : 1 ≤ clampFace sides face := Nat.le_max_left ..

theorem clampFace_le {sides : Nat} (face : Nat) (h : 1 ≤ sides) : clampFace sides face ≤ sides := by
  unfold clampFace
  omega

/-- Dice drawn from a generator of random numbers. -/
structure RandomDice where
  generator : StdGen

/-- A run of ten thousand explosions does not happen to a fair die. -/
instance : DieSource RandomDice where
  draw sides s :=
    let (face, generator) := randNat s.generator 1 (max sides 1)
    (face, ⟨generator⟩)
  patience _ := 10000

end Tabletop

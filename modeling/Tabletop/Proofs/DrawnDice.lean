import Tabletop.Proofs.Answering
import Tabletop.Proofs.Exploding

/-!
The dice that are drawn for an answer. A tray keeps its rolls in the order in which they were made. Main statement:
whatever comes of an answer, the dice that were taken from the source are those of the rolls that were added to the
tray, each of these is of a pool behind the last mark, and a result lists all of them and no others.
-/

namespace Tabletop

variable {σ : Type} [DieSource σ]

/-- `DrawnFor s rolls s'`: the rolls are made one after the other, and nothing else is drawn. -/
inductive DrawnFor : σ → List Roll → σ → Prop
  | nil (s : σ) : DrawnFor s [] s
  | cons {s s₁ s' : σ} {r : Roll} {rolls : List Roll} :
      Drawn r.pool.sides r.mode r.pool.count s r.faces s₁ → DrawnFor s₁ rolls s' → DrawnFor s (r :: rolls) s'

theorem DrawnFor.append {s s₁ s' : σ} {rolls more : List Roll} (h : DrawnFor s rolls s₁)
    (h' : DrawnFor s₁ more s') : DrawnFor s (rolls ++ more) s' := by
  induction h with
  | nil => exact h'
  | cons hr _ ih => exact .cons hr (ih h')

namespace Tray

variable {P : Roll → Prop} {tray tray₁ tray' : Tray σ} {rolls more : List Roll}

/-- The rolls that one tray has and the other has not yet, all of them with a property, and the dice drawn for them. -/
structure Adds (P : Roll → Prop) (tray : Tray σ) (rolls : List Roll) (tray' : Tray σ) : Prop where
  rolled : tray'.rolled = tray.rolled ++ rolls
  drawn : DrawnFor tray.dice rolls tray'.dice
  each : ∀ r ∈ rolls, P r

theorem adds_nil (P : Roll → Prop) (tray : Tray σ) : tray.Adds P [] tray where
  rolled := Array.ext' (by simp)
  drawn := .nil tray.dice
  each := List.forall_mem_nil P

theorem Adds.append (h : tray.Adds P rolls tray₁) (h' : tray₁.Adds P more tray') :
    tray.Adds P (rolls ++ more) tray' where
  rolled := by
    rw [h'.rolled, h.rolled]
    exact Array.ext' (by simp)
  drawn := h.drawn.append h'.drawn
  each := by
    intro r hr
    exact (List.mem_append.mp hr).elim (h.each r) (h'.each r)

/-- The rolls that are added are those that the value of an outcome lists, if there is a value. -/
def Accounts {α : Type} (P : Roll → Prop) (listed : α → List Roll) (tray : Tray σ)
    (outcome : Except Failure α × Tray σ) : Prop :=
  ∃ rolls, tray.Adds P rolls outcome.2 ∧ ∀ a, outcome.1 = .ok a → listed a = rolls

theorem adds_of_roll? {p : Pool} {mode : Scoring} {r : Roll} {s : σ} (h : p.roll? mode tray.dice = some (r, s))
    (hP : P r) : tray.Adds P [r] { tray with dice := s, rolled := tray.rolled.push r } where
  rolled := Array.ext' (by simp)
  drawn := by
    obtain ⟨⟨hpool, hmode, hdrawn⟩, -⟩ := Pool.roll?_eq_some_iff.mp h
    rw [← hpool, ← hmode] at hdrawn
    exact .cons hdrawn (.nil s)
  each := List.forall_mem_singleton.mpr hP

theorem accounts_rollAll {mode : Scoring} {ps : List Pool}
    (hP : ∀ r : Roll, r.mode = mode → (∃ p ∈ ps, r.pool = p.clamped) → P r) (tray : Tray σ) :
    tray.Accounts P id (tray.rollAll mode ps) := by
  induction ps generalizing tray with
  | nil =>
    refine ⟨[], adds_nil P tray, ?_⟩
    rintro _ ⟨⟩
    rfl
  | cons p ps ih =>
    rw [rollAll, roll]
    cases hroll : p.roll? mode tray.dice with
    | none =>
      refine ⟨[], adds_nil P tray, ?_⟩
      rintro all ⟨⟩
    | some rolled =>
      obtain ⟨r, s⟩ := rolled
      obtain ⟨hpool, hmode, -⟩ := Pool.roll?_eq_some hroll
      have hfirst := adds_of_roll? hroll (hP r hmode ⟨p, List.mem_cons_self, hpool⟩)
      have hlater : ∀ r : Roll, r.mode = mode → (∃ p ∈ ps, r.pool = p.clamped) → P r := by
        rintro r hr ⟨q, hq, hpool⟩
        exact hP r hr ⟨q, List.mem_cons_of_mem p hq, hpool⟩
      obtain ⟨rolls, hrest, hlisted⟩ := ih hlater { tray with dice := s, rolled := tray.rolled.push r }
      refine ⟨r :: rolls, ?_, ?_⟩
      · have happend := hfirst.append hrest
        dsimp only
        split
        · next hmore => rwa [hmore] at happend
        · next hmore => rwa [hmore] at happend
      · intro all hall
        dsimp only at hall
        split at hall
        · cases hall
        · next more after hmore =>
          cases hall
          rw [hmore] at hlisted
          exact congrArg (r :: ·) (hlisted more rfl)

end Tray

namespace Query

variable {evaluator : Arithmetic.Evaluator} {cs : List Char} {mode : Scoring} {P : Roll → Prop}

theorem accounts_answerTerms
    (hP : ∀ r : Roll, r.mode = rolledMode cs mode → (∃ p ∈ leafPools cs, r.pool = p.clamped) → P r) (tray : Tray σ) :
    tray.Accounts P Result.leafEntries (answerTerms evaluator cs mode tray) := by
  obtain ⟨rolls, hadds, hlisted⟩ := Tray.accounts_rollAll hP tray
  cases hrolls : tray.rollAll (rolledMode cs mode) (leafPools cs) with
  | mk outcome after =>
    rw [hrolls] at hadds hlisted
    cases outcome with
    | error e =>
      rw [answerTerms_of_rollAll_error hrolls]
      refine ⟨rolls, hadds, ?_⟩
      rintro r ⟨⟩
    | ok all =>
      obtain rfl : all = rolls := hlisted all rfl
      rw [answerTerms_of_rollAll hrolls]
      refine ⟨all, ⟨hadds.rolled, hadds.drawn, hadds.each⟩, ?_⟩
      intro r hr
      dsimp only at hr
      split at hr
      · cases hr
        rfl
      · split at hr
        · next hpools =>
          cases hr
          rw [hpools] at hrolls
          cases hrolls
          rfl
        · cases hr

theorem accounts_repeatAnswer {answer : Tray σ → Except Failure (Result Roll) × Tray σ}
    (h : ∀ tray : Tray σ, tray.Accounts P Result.leafEntries (answer tray)) (times : Nat) (done : List (Result Roll))
    (tray : Tray σ) :
    ∃ rolls, tray.Adds P rolls (repeatAnswer answer times done tray).2 ∧
      ∀ parts, (repeatAnswer answer times done tray).1 = .ok parts →
        parts.flatMap Result.leafEntries = done.reverse.flatMap Result.leafEntries ++ rolls := by
  induction times generalizing done tray with
  | zero =>
    refine ⟨[], Tray.adds_nil P tray, ?_⟩
    rintro _ ⟨⟩
    rw [List.append_nil]
  | succ times ih =>
    obtain ⟨rolls, hadds, hlisted⟩ := h tray
    rw [repeatAnswer]
    cases hr : answer tray with
    | mk outcome after =>
      rw [hr] at hadds hlisted
      cases outcome with
      | error e =>
        refine ⟨rolls, hadds, ?_⟩
        rintro parts ⟨⟩
      | ok r =>
        obtain ⟨more, hadds', hlisted'⟩ := ih (r :: done) after
        refine ⟨rolls ++ more, hadds.append hadds', ?_⟩
        intro parts hparts
        rw [hlisted' parts hparts, List.reverse_cons, List.flatMap_append, List.flatMap_singleton, hlisted r rfl,
          List.append_assoc]

theorem accounts_answerWithin {levels : Nat}
    (hP : ∀ r : Roll, r.mode = rolledMode (lastSegment cs) mode →
      (∃ p ∈ leafPools (lastSegment cs), r.pool = p.clamped) → P r) (tray : Tray σ) :
    tray.Accounts P Result.leafEntries (answerWithin evaluator levels cs mode tray) := by
  have hempty : ∀ (input : String) (tray : Tray σ), Tray.Accounts P Result.leafEntries tray
      ((.ok (.empty input), tray) : Except Failure (Result Roll) × Tray σ) := by
    intro input tray
    refine ⟨[], Tray.adds_nil P tray, ?_⟩
    rintro _ ⟨⟩
    rfl
  induction cs using markInduction generalizing levels tray with
  | plain cs hcs =>
    rw [answerWithin_of_none hcs]
    split
    · rw [lastSegment_of_none hcs] at hP
      exact accounts_answerTerms hP tray
    · exact hempty _ tray
  | marked cs times inner hcs ih =>
    cases levels with
    | zero =>
      rw [answerWithin_zero_of_some hcs]
      exact hempty _ tray
    | succ levels =>
      rw [lastSegment_of_some hcs] at hP
      rw [answerWithin_succ_of_some hcs]
      obtain ⟨rolls, hadds, hlisted⟩ := accounts_repeatAnswer (fun tray => @ih levels hP tray) times [] tray
      cases hrepeat : repeatAnswer (answerWithin evaluator levels inner mode) times [] tray with
      | mk outcome after =>
        rw [hrepeat] at hadds hlisted
        cases outcome with
        | error e =>
          refine ⟨rolls, hadds, ?_⟩
          rintro r ⟨⟩
        | ok parts =>
          refine ⟨rolls, hadds, ?_⟩
          rintro _ ⟨⟩
          rw [Result.leafEntries_repeated]
          exact hlisted parts rfl

/-- Whatever comes of an answer, it rolls pools behind the last mark in their mode, and nothing is drawn but for the
rolls that are added to the tray. -/
theorem accounts_answer (evaluator : Arithmetic.Evaluator) (query : String) (mode : Scoring) (tray : Tray σ) :
    tray.Accounts (fun r => r.mode = rolledMode (lastSegment query.toList) mode ∧
        ∃ p ∈ leafPools (lastSegment query.toList), r.pool = p.clamped)
      Result.leafEntries (answer evaluator query mode tray) :=
  accounts_answerWithin (fun _ hmode hpool => ⟨hmode, hpool⟩) tray

end Query

end Tabletop

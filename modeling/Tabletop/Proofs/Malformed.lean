import Tabletop.Proofs.Answering
import Tabletop.Proofs.Neighbours

/-!
Malformed queries. The totals of the dice are written into the text of a query, so the dice have a say in what is
read: they settle numbers, and Fate dice also signs. Main statement: two answers to one query are malformed in
the same way if the signs of their totals are the same, and where a pool stands in the place of an operand its
sign does no more than nest the text one level deeper. Behind an operand, however, a sign is an operator, so two
pools with only blanks between them are malformed just as long as the second total has none.
-/

namespace Tabletop

open Arithmetic

theorem Roll.total_nonneg {r : Roll} (h : r.mode ≠ .fate) : 0 ≤ r.total := by
  obtain ⟨pool, mode, faces⟩ := r
  induction faces with
  | nil => exact Int.le_refl 0
  | cons face faces ih =>
    rw [total_cons]
    exact Int.add_nonneg (Scoring.score_nonneg h face) (ih h)

namespace Query

/-- Whether a number in front of the pieces ends where they begin. -/
def endsNumber : List Piece → Bool
  | [] => true
  | .text (c :: _) :: _ => !Numeral.isPart c
  | _ => false

/-- For each pool of the pieces whether it stands by itself in the place of an operand: where one is due, at
the start or behind an operator, an opening parenthesis or a comma, and with neither digit nor point behind. -/
def operandPlaces (due : Bool) : List Piece → List Bool
  | [] => []
  | .text cs :: ps => operandPlaces (cs.foldl isDue due) ps
  | .dice _ _ :: ps => (due && endsNumber ps) :: operandPlaces false ps

section Splices

variable {signs due : Bool} {cs xs xs' : List Char} {ps : List Piece}

theorem digits_toDigits (n : Nat) : Digits (Nat.toDigits 10 n) :=
  ⟨Nat.toDigits_ne_nil, fun _ => isDigit_of_mem_toDigits⟩

theorem similar_append (h : Similar signs (cs.foldl isDue due) xs xs') :
    Similar signs due (cs ++ xs) (cs ++ xs') := by
  induction cs generalizing due with
  | nil => exact h
  | cons c cs ih => exact .char c (ih h)

theorem head_splice_of_endsNumber (h : endsNumber ps = true) (totals : List Int) :
    ∀ c ∈ (splice ps totals).head?, Numeral.isPart c = false := by
  unfold endsNumber at h
  split at h
  · exact nofun
  · next c cs ps =>
    intro x hx
    cases hx
    simpa using h
  · cases h

/-- The second total fits into the place of the first if both have signs or neither has, or, where signs are
free, if the first has none. -/
def Fits (signs place : Bool) (totals : Int × Int) : Prop :=
  (totals.1 < 0 ↔ totals.2 < 0) ∨ signs = true ∧ place = true ∧ 0 ≤ totals.1

theorem similar_intChars {t t' : Int} (h : Fits signs (due && endsNumber ps) (t, t')) {ts : List Int}
    (hrest : Similar signs false (splice ps ts) xs') :
    Similar signs due (intChars t ++ splice ps ts) (intChars t' ++ xs') := by
  cases t with
  | ofNat n =>
    cases t' with
    | ofNat n' => exact .digits (digits_toDigits n) (digits_toDigits n') hrest
    | negSucc n' =>
      have hfree : signs = true ∧ due = true ∧ endsNumber ps = true := by
        rcases h with h | ⟨hsigns, hplace, -⟩
        · exact absurd (h.mpr (Int.negSucc_lt_zero n')) (Int.not_lt.mpr (Int.natCast_nonneg n))
        · exact ⟨hsigns, Bool.and_eq_true_iff.mp hplace⟩
      obtain ⟨hsigns, rfl, hends⟩ := hfree
      exact .signed hsigns (digits_toDigits n) (digits_toDigits (n' + 1))
        (head_splice_of_endsNumber hends ts) hrest
  | negSucc n =>
    cases t' with
    | ofNat n' =>
      rcases h with h | ⟨-, -, hle⟩
      · exact absurd (h.mp (Int.negSucc_lt_zero n)) (Int.not_lt.mpr (Int.natCast_nonneg n'))
      · exact absurd (Int.negSucc_lt_zero n) (Int.not_lt.mpr hle)
    | negSucc n' =>
      exact .char '-' (.digits (digits_toDigits (n + 1)) (digits_toDigits (n' + 1)) hrest)

/-- Texts with totals that fit are similar. -/
theorem similar_splice {runs : List (Int × Int)} (hlength : runs.length = (pools ps).length)
    (h : ∀ x ∈ (operandPlaces due ps).zip runs, Fits signs x.1 x.2) :
    Similar signs due (splice ps (runs.map Prod.fst)) (splice ps (runs.map Prod.snd)) := by
  induction ps generalizing due runs with
  | nil => exact .nil
  | cons p ps ih =>
    cases p with
    | text cs =>
      have hsplice : ∀ ts, splice (.text cs :: ps) ts = cs ++ splice ps ts := fun _ => rfl
      rw [hsplice, hsplice]
      exact similar_append (ih hlength h)
    | dice cs pool =>
      obtain ⟨t, runs, rfl⟩ := List.exists_cons_of_length_eq_add_one hlength
      rw [operandPlaces, List.zip_cons_cons, List.forall_mem_cons] at h
      exact similar_intChars h.1 (ih (Nat.succ.inj hlength) h.2)

/-- Both totals fit into the place of the greater one. -/
theorem fits_max {place : Bool} {t u : Int} (h : place = true ∨ (t < 0 ↔ u < 0)) :
    Fits true place (max t u, t) ∧ Fits true place (max t u, u) := by
  by_cases hmax : max t u < 0
  · constructor <;> left <;> dsimp only <;> omega
  · rcases h with rfl | h
    · exact ⟨.inr ⟨rfl, rfl, Int.not_lt.mp hmax⟩, .inr ⟨rfl, rfl, Int.not_lt.mp hmax⟩⟩
    · constructor <;> left <;> dsimp only <;> omega

/-- Texts with totals of the same signs are malformed in the same way. -/
theorem malformationIn_splice {runs : List (Int × Int)} (hlength : runs.length = (pools ps).length)
    (h : ∀ x ∈ runs, x.1 < 0 ↔ x.2 < 0) :
    malformationIn (parse (splice ps (runs.map Prod.fst))) =
      malformationIn (parse (splice ps (runs.map Prod.snd))) := by
  have hsimilar : Similar false true (splice ps (runs.map Prod.fst)) (splice ps (runs.map Prod.snd)) :=
    similar_splice hlength fun x hx => .inl (h x.2 (List.of_mem_zip hx).2)
  rcases hsimilar.malformationIn_parse with heq | ⟨hsigns, -⟩
  · exact heq.symm
  · cases hsigns

/-- Where a pool stands in the place of an operand its total may change the sign, which adds a level. -/
theorem malformationIn_splice_of_places {runs : List (Int × Int)}
    (hlength : runs.length = (pools ps).length)
    (h : ∀ x ∈ (operandPlaces true ps).zip runs, x.1 = true ∨ (x.2.1 < 0 ↔ x.2.2 < 0)) :
    malformationIn (parse (splice ps (runs.map Prod.fst))) =
        malformationIn (parse (splice ps (runs.map Prod.snd))) ∨
      malformationIn (parse (splice ps (runs.map Prod.fst))) = some .tooDeep ∨
        malformationIn (parse (splice ps (runs.map Prod.snd))) = some .tooDeep := by
  -- Both texts are compared with the one in which every total is the greater of the two.
  let greater := splice ps (runs.map fun x => max x.1 x.2)
  have hfst : Similar true true greater (splice ps (runs.map Prod.fst)) := by
    have hfits : ∀ x ∈ (operandPlaces true ps).zip (runs.map fun x => (max x.1 x.2, x.1)),
        Fits true x.1 x.2 := by
      rw [List.zip_map_right, List.forall_mem_map]
      exact fun x hx => (fits_max (h x hx)).1
    simpa [greater, Function.comp_def] using similar_splice (by simpa using hlength) hfits
  have hsnd : Similar true true greater (splice ps (runs.map Prod.snd)) := by
    have hfits : ∀ x ∈ (operandPlaces true ps).zip (runs.map fun x => (max x.1 x.2, x.2)),
        Fits true x.1 x.2 := by
      rw [List.zip_map_right, List.forall_mem_map]
      exact fun x hx => (fits_max (h x hx)).2
    simpa [greater, Function.comp_def] using similar_splice (by simpa using hlength) hfits
  rcases hfst.malformationIn_parse with heq | ⟨-, hdeep⟩
  · rcases hsnd.malformationIn_parse with heq' | ⟨-, hdeep'⟩
    · exact .inl (heq.trans heq'.symm)
    · exact .inr (.inr hdeep')
  · exact .inr (.inl hdeep)

end Splices

section Blanks

theorem exists_split_of_getElem? {α : Type} {as : List α} {n : Nat} {a : α} (h : as[n + 1]? = some a) :
    ∃ before b behind, as = before ++ b :: a :: behind ∧ before.length = n := by
  obtain ⟨hn, rfl⟩ := List.getElem?_eq_some_iff.mp h
  refine ⟨as.take n, as[n], as.drop (n + 2), ?_, List.length_take_of_le (by omega)⟩
  rw [← List.drop_eq_getElem_cons hn, ← List.drop_eq_getElem_cons (Nat.lt_of_succ_lt hn),
    List.take_append_drop]

theorem exists_last_intChars (t : Int) : ∃ xs x, intChars t = xs ++ [x] ∧ x.isDigit = true := by
  have hlast : ∀ n, ∃ xs x, Nat.toDigits 10 n = xs ++ [x] ∧ x.isDigit = true := by
    intro n
    obtain ⟨hne, hall⟩ := digits_toDigits n
    exact ⟨_, _, (List.dropLast_append_getLast hne).symm, hall _ (List.getLast_mem hne)⟩
  cases t with
  | ofNat n => exact hlast n
  | negSucc n =>
    obtain ⟨xs, x, hxs, hx⟩ := hlast (n + 1)
    exact ⟨'-' :: xs, x, congrArg (List.cons '-') hxs, hx⟩

theorem exists_first_intChars {t : Int} (h : 0 ≤ t) : ∃ x xs, intChars t = x :: xs ∧ x.isDigit = true := by
  obtain ⟨n, rfl⟩ := Int.eq_ofNat_of_zero_le h
  obtain ⟨hne, hall⟩ := digits_toDigits n
  obtain ⟨x, xs, hxs⟩ := List.exists_cons_of_ne_nil hne
  exact ⟨x, xs, hxs, hall x (hxs ▸ List.mem_cons_self)⟩

variable {ps qs : List Piece} {blanks : List Char}

theorem splice_append_of_length {ts : List Int} (h : ts.length = (pools ps).length) (us : List Int) :
    splice (ps ++ qs) (ts ++ us) = splice ps ts ++ splice qs us := by
  induction ps generalizing ts with
  | nil =>
    rw [List.eq_nil_of_length_eq_zero h]
    rfl
  | cons p ps ih =>
    cases p with
    | text cs => exact (congrArg (cs ++ ·) (ih h)).trans (List.append_assoc ..).symm
    | dice cs pool =>
      obtain ⟨t, ts, rfl⟩ := List.exists_cons_of_length_eq_add_one h
      exact (congrArg (intChars t ++ ·) (ih (Nat.succ.inj h))).trans (List.append_assoc ..).symm

/-- Two pools with blanks alone between them, the second with a total that has no sign. -/
theorem malformed_of_blanks_between {a b : List Char} {p q : Pool} {ts us : List Int} {t u : Int}
    (hlength : ts.length = (pools ps).length) (hne : blanks ≠ []) (hblanks : Blanks blanks) (hu : 0 ≤ u) :
    ∃ k, malformationIn (parse (splice
      (ps ++ .dice a p :: (blanks.map (fun c => .text [c]) ++ .dice b q :: qs)) (ts ++ t :: u :: us))) =
        some k := by
  obtain ⟨xs, x, hxs, hx⟩ := exists_last_intChars t
  obtain ⟨y, ys, hys, hy⟩ := exists_first_intChars hu
  obtain ⟨c, gap, rfl⟩ := List.exists_cons_of_ne_nil hne
  have hpools : pools ((c :: gap).map fun c => .text [c]) = [] := by
    simp [pools, Piece.pool?]
  have hchars : ((c :: gap).map fun c => Piece.text [c]).flatMap Piece.chars = c :: gap := by
    simp [List.flatMap_map, Piece.chars]
  have hsplice : splice (ps ++ .dice a p :: ((c :: gap).map (fun c => .text [c]) ++ .dice b q :: qs))
      (ts ++ t :: u :: us) =
        splice ps ts ++ xs ++ [x] ++ c :: (gap ++ y :: (ys ++ splice qs us)) := by
    rw [splice_append_of_length hlength, splice, splice_append hpools, hchars, splice, hxs, hys]
    simp
  rw [hsplice]
  exact malformed_of_digits_apart hx (hblanks c List.mem_cons_self)
    (fun z hz => hblanks z (List.mem_cons_of_mem c hz)) hy

end Blanks

section Answers

/-- The malformation that a failed answer tells of. -/
def malformationOf : Except Failure (Result Roll) → Option Malformation
  | .error (.arithmetic e) => e.fault.malformation?
  | _ => none

theorem malformationIn_evaluate (cs : List Char) :
    malformationIn (evaluate (String.ofList cs)) = malformationIn (parse cs) := by
  rw [evaluate, String.toList_ofList]
  cases parse cs with
  | error e => rfl
  | ok tree =>
    simp only [bind, Except.bind]
    cases tree.evaluate <;> rfl

variable {σ : Type} [DieSource σ] {query : String} {mode : Scoring} {tray after : Tray σ}
  {rolls : List Roll}

/-- An answer is malformed as the text with its totals is, and never without dice. -/
theorem malformationOf_answer (hmarks : ∀ c ∈ query.toList, isRepetitionMark c = false)
    (hrolls : tray.rollAll (rolledMode query.toList mode) (leafPools query.toList) = (.ok rolls, after)) :
    malformationOf (answer evaluate query mode tray).1 =
      if leafPools query.toList = [] then none
      else malformationIn (parse (splice (pieces (rolledText query.toList)) (rolls.map Roll.total))) := by
  rw [answer, answerWithin_of_none (splitRepetition?_eq_none_iff.mpr hmarks), answerTerms_of_rollAll hrolls,
    ← malformationIn_evaluate, leafText]
  by_cases hpools : leafPools query.toList = []
  · rw [if_pos hpools]
    split
    · cases evaluate _ <;> rfl
    · rfl
  · rw [if_neg hpools, if_pos (isWorthReading_of_leafPools_ne_nil hpools)]
    cases evaluate _ <;> simp only [if_neg hpools] <;> rfl

/-- Only Fate dice have totals with a sign. -/
theorem total_nonneg_of_rollAll {pools : List Pool} (hmode : mode ≠ .fate)
    (hrolls : tray.rollAll mode pools = (.ok rolls, after)) : ∀ r ∈ rolls, 0 ≤ r.total := by
  refine Tray.forall_of_rollAll hrolls fun p s r s' hr => Roll.total_nonneg ?_
  rwa [(Pool.roll?_eq_some hr).2.1]

variable {tray₁ tray₂ after₁ after₂ : Tray σ} {rolls₁ rolls₂ : List Roll}

/-- Two answers to a query without a mark, on dice with which the rolls end. If their totals have the same signs,
they are malformed in the same way or both are not, and only Fate dice have totals with signs. If the signs are the
same wherever a pool does not stand in the place of an operand, they agree as well unless one of them nests too
deep. An answer with dice is malformed where operands stand side by side in its text, and so it is where only
blanks stand between two pools, as long as the second total has no sign. -/
theorem answer_malformed (hmarks : ∀ c ∈ query.toList, isRepetitionMark c = false)
    (hrolls₁ : tray₁.rollAll (rolledMode query.toList mode) (leafPools query.toList) = (.ok rolls₁, after₁))
    (hrolls₂ : tray₂.rollAll (rolledMode query.toList mode) (leafPools query.toList) = (.ok rolls₂, after₂)) :
    ((∀ x ∈ rolls₁.zip rolls₂, x.1.total < 0 ↔ x.2.total < 0) →
      malformationOf (answer evaluate query mode tray₁).1 =
        malformationOf (answer evaluate query mode tray₂).1) ∧
    (rolledMode query.toList mode ≠ .fate →
      ∀ x ∈ rolls₁.zip rolls₂, x.1.total < 0 ↔ x.2.total < 0) ∧
    ((∀ x ∈ (operandPlaces true (pieces (rolledText query.toList))).zip (rolls₁.zip rolls₂),
        x.1 = true ∨ (x.2.1.total < 0 ↔ x.2.2.total < 0)) →
      malformationOf (answer evaluate query mode tray₁).1 =
          malformationOf (answer evaluate query mode tray₂).1 ∨
        malformationOf (answer evaluate query mode tray₁).1 = some .tooDeep ∨
          malformationOf (answer evaluate query mode tray₂).1 = some .tooDeep) ∧
    (leafPools query.toList ≠ [] →
      (∃ l l', [l, l'] <:+: (lex (leafText query.toList rolls₁).toList).lexemes ∧
        l.token.abut l'.token = true) →
      ∃ k, malformationOf (answer evaluate query mode tray₁).1 = some k) ∧
    ∀ ps a p blanks b q qs r,
      pieces (rolledText query.toList) =
        ps ++ .dice a p :: (blanks.map (fun c => .text [c]) ++ .dice b q :: qs) →
      blanks ≠ [] → Blanks blanks → rolls₁[(pools ps).length + 1]? = some r → 0 ≤ r.total →
      ∃ k, malformationOf (answer evaluate query mode tray₁).1 = some k := by
  let runs := (rolls₁.map Roll.total).zip (rolls₂.map Roll.total)
  have hzip : runs = (rolls₁.zip rolls₂).map (Prod.map Roll.total Roll.total) := List.zip_map ..
  have hlength₁ := Tray.length_of_rollAll hrolls₁
  have hlength₂ := Tray.length_of_rollAll hrolls₂
  have hlength : runs.length = (leafPools query.toList).length := by
    rw [List.length_zip, List.length_map, List.length_map, hlength₁, hlength₂, Nat.min_self]
  have htotals₁ : runs.map Prod.fst = rolls₁.map Roll.total :=
    List.map_fst_zip (by rw [List.length_map, List.length_map, hlength₁, hlength₂])
  have htotals₂ : runs.map Prod.snd = rolls₂.map Roll.total :=
    List.map_snd_zip (by rw [List.length_map, List.length_map, hlength₁, hlength₂])
  rw [malformationOf_answer hmarks hrolls₁, malformationOf_answer hmarks hrolls₂, ← htotals₁, ← htotals₂]
  refine ⟨?_, ?_, ?_, ?_, ?_⟩
  · intro hsigns
    have hruns : ∀ x ∈ runs, x.1 < 0 ↔ x.2 < 0 := by
      rw [hzip, List.forall_mem_map]
      exact hsigns
    rw [malformationIn_splice hlength hruns]
  · intro hmode x hx
    have hle₁ := total_nonneg_of_rollAll hmode hrolls₁ x.1 (List.of_mem_zip hx).1
    have hle₂ := total_nonneg_of_rollAll hmode hrolls₂ x.2 (List.of_mem_zip hx).2
    omega
  · intro hplaces
    have hruns : ∀ x ∈ (operandPlaces true (pieces (rolledText query.toList))).zip runs,
        x.1 = true ∨ (x.2.1 < 0 ↔ x.2.2 < 0) := by
      rw [hzip, List.zip_map_right, List.forall_mem_map]
      exact hplaces
    split
    · exact .inl rfl
    · exact malformationIn_splice_of_places hlength hruns
  · rintro hpools ⟨l, l', hlexemes, habut⟩
    rw [if_neg hpools, htotals₁]
    rw [leafText, String.toList_ofList] at hlexemes
    exact malformed_of_abut hlexemes habut
  · intro ps a p blanks b q qs r hpieces hne hblanks hr hle
    obtain ⟨earlier, s, later, hrolls, hearlier⟩ := exists_split_of_getElem? hr
    have hpools : leafPools query.toList ≠ [] := by
      simp [leafPools, hpieces, pools, Piece.pool?]
    have htotals : rolls₁.map Roll.total =
        earlier.map Roll.total ++ s.total :: r.total :: later.map Roll.total := by
      rw [hrolls, List.map_append, List.map_cons, List.map_cons]
    rw [if_neg hpools, htotals₁, htotals, hpieces]
    exact malformed_of_blanks_between (by rw [List.length_map, hearlier]) hne hblanks hle

/-- Two Fate dice with a blank between them, which show plus and plus on one script, blank and plus on another. -/
theorem answer_malformed_two_dice :
    malformationOf (answer evaluate "1d6 1d6" .fate (.ofDice (Script.ofList [6, 5]))).1 =
        malformationOf (answer evaluate "1d6 1d6" .fate (.ofDice (Script.ofList [3, 6]))).1 ∧
      ∃ k, malformationOf (answer evaluate "1d6 1d6" .fate (.ofDice (Script.ofList [6, 5]))).1 = some k := by
  have hmarks : ∀ c ∈ "1d6 1d6".toList, isRepetitionMark c = false := splitRepetition?_eq_none_iff.mp rfl
  have hpieces : pieces (rolledText "1d6 1d6".toList) =
      [] ++ .dice ['1', 'd', '6'] ⟨1, 6⟩ :: ([' '].map (fun c => .text [c]) ++
        .dice ['1', 'd', '6'] ⟨1, 6⟩ :: []) := by decide +kernel
  have hpools : leafPools "1d6 1d6".toList = [⟨1, 6⟩, ⟨1, 6⟩] := by
    rw [leafPools, hpieces]
    rfl
  have hrolls₁ : (Tray.ofDice (Script.ofList [6, 5])).rollAll (rolledMode "1d6 1d6".toList .fate)
      (leafPools "1d6 1d6".toList) = (.ok [⟨⟨1, 6⟩, .fate, [6]⟩, ⟨⟨1, 6⟩, .fate, [5]⟩],
        ⟨⟨[], 5⟩, #[⟨⟨1, 6⟩, .fate, [6]⟩, ⟨⟨1, 6⟩, .fate, [5]⟩], #[]⟩) := by
    rw [hpools]
    rfl
  have hrolls₂ : (Tray.ofDice (Script.ofList [3, 6])).rollAll (rolledMode "1d6 1d6".toList .fate)
      (leafPools "1d6 1d6".toList) = (.ok [⟨⟨1, 6⟩, .fate, [3]⟩, ⟨⟨1, 6⟩, .fate, [6]⟩],
        ⟨⟨[], 6⟩, #[⟨⟨1, 6⟩, .fate, [3]⟩, ⟨⟨1, 6⟩, .fate, [6]⟩], #[]⟩) := by
    rw [hpools]
    rfl
  obtain ⟨hsame, -, -, -, hblanks⟩ := answer_malformed hmarks hrolls₁ hrolls₂
  refine ⟨hsame (by decide), hblanks _ _ _ _ _ _ _ _ hpieces (by decide) ?_ rfl (by decide)⟩
  simp [Blanks, Text.isBlank]

/-- The sign of a total stands for the operator that is missing. -/
theorem answer_malformed_on_one_script :
    malformationOf (answer evaluate "1d6 1d6" .fate (.ofDice (Script.ofList [6, 6]))).1 =
        some .trailingInput ∧
      ∃ r after, answer evaluate "1d6 1d6" .fate (.ofDice (Script.ofList [6, 1])) = (.ok r, after) := by
  refine ⟨by decide +kernel, ?_⟩
  have hanswered : (answer evaluate "1d6 1d6" .fate (.ofDice (Script.ofList [6, 1]))).1.isOk = true := by
    decide +kernel
  cases h : answer evaluate "1d6 1d6" .fate (.ofDice (Script.ofList [6, 1])) with
  | mk outcome after =>
    rw [h] at hanswered
    cases outcome with
    | ok r => exact ⟨r, after, rfl⟩
    | error e => cases hanswered

end Answers

end Query

end Tabletop

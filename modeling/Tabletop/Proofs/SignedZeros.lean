import Tabletop.Proofs.Shape
import Mathlib

/-!
The sign of zero. A sum is the negative zero only if both summands are. For this a finite number of double precision
is seen as a mantissa of at most 53 bits times a power of two that is not below `2 ^ -1074`: what rounding makes of
such numbers is of the same kind, so no sum is rounded to zero, and no number of the kind is packed as a zero. Main
statement: a total that is added up is never the negative zero, since the addition begins with the other one, and
neither is a total of the usual evaluator, which drops the sign of a zero.
-/

namespace Tabletop

section Unpacked

open Float.Model Float.Model.UnpackedFloat

variable {s : Sign} {m : Nat} {e : Int} {u v : UnpackedFloat}

/-- What double precision makes of numbers, if it is finite: 53 bits and a power of two that is not too small. -/
def FitsBinary64 : UnpackedFloat → Prop
  | .finite _ m e _ => m < 2 ^ 53 ∧ -1074 ≤ e
  | _ => True

section Rounding

theorem mantissa_shiftRight (em : ExtendedMantissa) (k : Nat) : (em >>> k).mantissa = em.mantissa / 2 ^ k := by
  induction k with
  | zero => exact (Nat.div_one _).symm
  | succ k ih =>
    change (em >>> k).mantissa / 2 = _
    rw [ih, Nat.div_div_eq_div_mul, Nat.pow_succ]

theorem mantissa_ofMantissaAndAccuracy (m : Nat) (accuracy : Accuracy) :
    (ExtendedMantissa.ofMantissaAndAccuracy m accuracy).mantissa = m := by
  cases accuracy with
  | exact => rfl
  | inexact half => cases half <;> rfl

theorem le_roundedMantissa (em : ExtendedMantissa) : em.mantissa ≤ em.roundedMantissa := by
  rw [ExtendedMantissa.roundedMantissa]
  cases em.accuracy with
  | exact => exact Nat.le_refl _
  | inexact half => cases half <;> simp [Accuracy.roundToNearestEven]

theorem targetExponent_eq (m : Nat) (e : Int) :
    Format.binary64.targetExponent (totalExponent m e) = max (m.log2 + e - 52) (-1074) := by
  have hleast : Format.binary64.minExponent = -1074 := by decide
  have hbits : (Format.binary64.mantissaBits : Int) = 53 := by decide
  rw [Format.targetExponent, totalExponent, hleast, hbits]
  omega

/-- The first 53 bits of a number. -/
theorem div_pow_log2_mem (hm : 0 < m) : 0 < m / 2 ^ (m.log2 - 52) ∧ m / 2 ^ (m.log2 - 52) < 2 ^ 53 := by
  constructor
  · have hlow : 2 ^ m.log2 ≤ m := Nat.log2_self_le hm.ne'
    exact Nat.div_pos ((Nat.pow_le_pow_right (by decide) (Nat.sub_le ..)).trans hlow) (Nat.two_pow_pos _)
  · rw [Nat.div_lt_iff_lt_mul (Nat.two_pow_pos _), ← Nat.pow_add]
    calc m
      _ < 2 ^ (m.log2 + 1) := Nat.lt_log2_self
      _ ≤ 2 ^ (53 + (m.log2 - 52)) := Nat.pow_le_pow_right (by decide) (by omega)

theorem shiftToTargetExponent_eq (he : -1074 ≤ e) (accuracy : Accuracy) :
    ∃ em e', shiftToTargetExponent .binary64 m e accuracy = (em, e') ∧
      em.mantissa = m / 2 ^ (m.log2 - 52) ∧ -1074 ≤ e' := by
  have hshift : (max (m.log2 + e - 52) (-1074) - e).toNat = m.log2 - 52 := by omega
  rw [shiftToTargetExponent, shiftToExponent, targetExponent_eq]
  refine ⟨_, _, rfl, ?_, by omega⟩
  rw [hshift, mantissa_shiftRight, mantissa_ofMantissaAndAccuracy]

/-- Rounding keeps the first bits of the mantissa, of which one is set, and may carry into the next one. -/
theorem roundWithAccuracy_eq_finite (hm : 0 < m) (he : -1074 ≤ e) (accuracy : Accuracy) :
    ∃ m' e' hm', roundWithAccuracy .binary64 s m e accuracy = .finite s m' e' hm' ∧
      FitsBinary64 (.finite s m' e' hm') := by
  obtain ⟨em, e₁, hfirst, hmantissa, he₁⟩ := @shiftToTargetExponent_eq m e he accuracy
  have hrounded : 0 < em.roundedMantissa := by
    calc 0
      _ < em.mantissa := hmantissa ▸ (div_pow_log2_mem hm).1
      _ ≤ em.roundedMantissa := le_roundedMantissa em
  obtain ⟨em', e₂, hsecond, hmantissa', he₂⟩ := @shiftToTargetExponent_eq em.roundedMantissa e₁ he₁ .exact
  obtain ⟨hpos, hlt⟩ := div_pow_log2_mem hrounded
  rw [← hmantissa'] at hpos hlt
  refine ⟨em'.mantissa, e₂, hpos, ?_, hlt, he₂⟩
  simp only [roundWithAccuracy, hfirst, hsecond, dif_neg hpos.ne']

theorem round_eq_finite (hm : 0 < m) (he : -1074 ≤ e) :
    ∃ m' e' hm', UnpackedFloat.round .binary64 s m e = .finite s m' e' hm' ∧ FitsBinary64 (.finite s m' e' hm') := by
  simp only [UnpackedFloat.round, targetExponent_eq, decreaseExponent]
  apply roundWithAccuracy_eq_finite
  · rw [Nat.shiftLeft_eq]
    exact Nat.mul_pos hm (Nat.two_pow_pos _)
  · omega

theorem fits_normalize (he : -1074 ≤ e) (z : Int) :
    FitsBinary64 (UnpackedFloat.normalize .binary64 z e .positive) ∧
      UnpackedFloat.normalize .binary64 z e .positive ≠ .zero .negative := by
  unfold UnpackedFloat.normalize
  split
  · next hneg =>
    have hz : z < 0 := Int.compare_eq_lt.mp hneg
    obtain ⟨m', e', hm', hround, hfits⟩ := @round_eq_finite .negative (-z).toNat e (by omega) he
    rw [hround]
    exact ⟨hfits, nofun⟩
  · exact ⟨trivial, nofun⟩
  · next hpos =>
    have hz : 0 < z := Int.compare_eq_gt.mp hpos
    obtain ⟨m', e', hm', hround, hfits⟩ := @round_eq_finite .positive z.toNat e (by omega) he
    rw [hround]
    exact ⟨hfits, nofun⟩

/-- The sum of finite numbers is zero only if it is so exactly, and then it is the positive zero. -/
theorem fits_add (hu : FitsBinary64 u) (hv : FitsBinary64 v) :
    FitsBinary64 (add .binary64 u v) ∧
      (add .binary64 u v = .zero .negative → u = .zero .negative ∧ v = .zero .negative) := by
  cases u with
  | notANumber => exact ⟨trivial, nofun⟩
  | infinity s =>
    cases v with
    | infinity s' => cases s <;> cases s' <;> exact ⟨trivial, nofun⟩
    | notANumber | zero | finite => exact ⟨trivial, nofun⟩
  | zero s =>
    cases v with
    | notANumber | infinity => exact ⟨trivial, nofun⟩
    | zero s' =>
      cases s with
      | positive => cases s' <;> exact ⟨trivial, nofun⟩
      | negative =>
        cases s' with
        | positive => exact ⟨trivial, nofun⟩
        | negative => exact ⟨trivial, fun _ => ⟨rfl, rfl⟩⟩
    | finite => exact ⟨hv, nofun⟩
  | finite s m e hm =>
    cases v with
    | notANumber | infinity => exact ⟨trivial, nofun⟩
    | zero => exact ⟨hu, nofun⟩
    | finite s' m' e' hm' =>
      obtain ⟨-, he⟩ := hu
      obtain ⟨-, he'⟩ := hv
      obtain ⟨hfits, hne⟩ := fits_normalize (Int.le_min.mpr ⟨he, he'⟩) _
      exact ⟨hfits, fun h => absurd h hne⟩

end Rounding

section Packing

theorem fits_unpack (b : BitVec 64) : FitsBinary64 (UnpackedFloat.unpack .binary64 b) := by
  have hbias : (Format.binary64.exponentBias : Int) + Format.binary64.mantissaBitsWithoutImplicit = 1075 := by decide
  simp only [UnpackedFloat.unpack, hbias]
  split
  · split <;> trivial
  · split
    · next hexponent =>
      split
      · trivial
      · have hlt : (@unpackMantissa .binary64 b).toNat < 2 ^ 52 := BitVec.isLt _
        refine ⟨by omega, ?_⟩
        rw [hexponent]
        decide
    · next hexponent =>
      have hpos : 0 < (@unpackExponent .binary64 b).toNat := by
        rw [BitVec.toNat_pos, BitVec.pos_iff_ne_zero]
        exact hexponent
      exact ⟨BitVec.isLt _, by omega⟩

/-- A finite number is packed with an exponent or with a mantissa that is not zero. -/
theorem eq_zero_of_pack (hu : FitsBinary64 u) (h : UnpackedFloat.pack .binary64 u = packedZero .binary64 .negative) :
    u = .zero .negative := by
  have hexponent := congrArg (@unpackExponent .binary64) h
  have hmantissa := congrArg (@unpackMantissa .binary64) h
  simp only [packedZero, unpackExponent_packComponents, unpackMantissa_packComponents] at hexponent hmantissa
  cases u with
  | notANumber =>
    simp only [UnpackedFloat.pack, packedNaN, unpackExponent_packComponents] at hexponent
    exact absurd hexponent (by decide)
  | infinity s =>
    simp only [UnpackedFloat.pack, packedInfinity, unpackExponent_packComponents] at hexponent
    exact absurd hexponent (by decide)
  | zero s =>
    cases s with
    | negative => rfl
    | positive => exact absurd h (by decide)
  | finite s m e hm =>
    obtain ⟨hlt, he⟩ := hu
    have hbias : (Format.binary64.exponentBias : Int) = 1023 := by decide
    have hbits : Format.binary64.mantissaBits = 53 := by decide
    simp only [UnpackedFloat.pack, hbias, hbits] at hexponent hmantissa
    split at hexponent
    · simp only [packedInfinity, unpackExponent_packComponents] at hexponent
      exact absurd hexponent (by decide)
    · next hsmall =>
      rw [if_neg hsmall] at hmantissa
      split at hexponent
      · simp only [unpackExponent_packComponents] at hexponent
        have hzero : (e + 1023 + (52 : Nat)).toNat % 2 ^ 11 = 0 := congrArg BitVec.toNat hexponent
        omega
      · next hsubnormal =>
        rw [if_neg hsubnormal, unpackMantissa_packComponents] at hmantissa
        have hzero : m % 2 ^ 52 = 0 := congrArg BitVec.toNat hmantissa
        have hlog : m.log2 < 53 := (Nat.log2_lt hm.ne').mpr hlt
        have hlt' : m < 2 ^ 52 := (Nat.log2_lt hm.ne').mp (by omega)
        omega

end Packing

theorem toBits_negZero : (-0 : Float).toModel.toBits.toBitVec = packedZero .binary64 .negative := by decide

theorem eq_negZero_of_unpack {x : Float} (h : x.toModel.unpack = .zero .negative) : x = -0 := by
  obtain ⟨⟨⟨b⟩, hb⟩⟩ := x
  obtain rfl : b = packedZero .binary64 .negative := (unpack_eq_zero_iff_of_valid hb).mp h
  rfl

/-- A sum is the negative zero just if both summands are. -/
theorem add_eq_negZero_iff {x y : Float} : x + y = -0 ↔ x = -0 ∧ y = -0 := by
  constructor
  · intro h
    have hpacked : UnpackedFloat.pack .binary64 (add .binary64 x.toModel.unpack y.toModel.unpack) =
        packedZero .binary64 .negative := by
      rw [← toBits_negZero, ← h]
      rfl
    obtain ⟨hfits, hzeros⟩ := fits_add (fits_unpack x.toModel.toBits.toBitVec) (fits_unpack y.toModel.toBits.toBitVec)
    obtain ⟨hx, hy⟩ := hzeros (eq_zero_of_pack hfits hpacked)
    exact ⟨eq_negZero_of_unpack hx, eq_negZero_of_unpack hy⟩
  · rintro ⟨rfl, rfl⟩
    decide

end Unpacked

theorem zero_ne_negZero : (0 : Float) ≠ -0 := by decide

theorem Arithmetic.unsignedZero_ne_negZero (x : Float) : unsignedZero x ≠ -0 := by
  unfold unsignedZero
  split
  · exact zero_ne_negZero
  · next hx =>
    rintro rfl
    exact hx (by decide)

theorem Arithmetic.evaluate_ne_negZero {text : String} {x : Float} (h : evaluate text = .ok x) : x ≠ -0 := by
  unfold evaluate at h
  cases hparse : parse text.toList with
  | error e =>
    rw [hparse] at h
    cases h
  | ok tree =>
    rw [hparse] at h
    cases hvalue : tree.evaluate with
    | error f =>
      simp only [bind, Except.bind, hvalue] at h
      cases h
    | ok y =>
      simp only [bind, Except.bind, hvalue] at h
      cases h
      exact unsignedZero_ne_negZero y

namespace Query

/-- The first sum is not the negative zero, and so no sum is. -/
theorem sumTotals_ne_negZero (parts : List (Result Roll)) : sumTotals parts ≠ -0 := by
  refine List.foldlRecOn (motive := (· ≠ -0)) parts _ zero_ne_negZero ?_
  intro sum hsum part _ h
  exact hsum (add_eq_negZero_iff.mp h).1

variable {σ : Type} [DieSource σ] {evaluator : Arithmetic.Evaluator} {levels : Nat} {cs : List Char} {mode : Scoring}
  {tray after : Tray σ} {r : Result Roll}

/-- What holds of the answers to queries without a mark, of empty results and of repetitions of any parts holds of all
nodes of a result. -/
theorem forall_nodesAt {P : Result Roll → Prop}
    (terms : ∀ cs (tray after : Tray σ) r, answerTerms evaluator cs mode tray = (.ok r, after) → P r)
    (empty : ∀ input, P (.empty input)) (repeated : ∀ input parts, P (.repeated input (sumTotals parts) [] parts))
    (h : answerWithin evaluator levels cs mode tray = (.ok r, after)) : ∀ i, ∀ node ∈ r.nodesAt i, P node := by
  -- A result without parts is its only node.
  have hleaf : ∀ r : Result Roll, r.parts? = none → P r → ∀ i, ∀ node ∈ r.nodesAt i, P node := by
    intro r hparts hr i node hnode
    cases i with
    | zero => exact List.mem_singleton.mp hnode ▸ hr
    | succ i =>
      rw [Result.nodesAt, hparts] at hnode
      cases hnode
  induction cs using markInduction generalizing levels tray r after with
  | plain cs hcs =>
    rw [answerWithin_of_none hcs] at h
    split at h
    · exact hleaf r (answerTerms_eq_ok h).2.1 (terms cs tray after r h)
    · cases h
      exact hleaf _ rfl (empty _)
  | marked cs times inner hcs ih =>
    cases levels with
    | zero =>
      rw [answerWithin_zero_of_some hcs] at h
      cases h
      exact hleaf _ rfl (empty _)
    | succ levels =>
      rw [answerWithin_succ_of_some hcs] at h
      split at h
      · cases h
      · next parts tray₁ hrepeat =>
        cases h
        obtain ⟨parts, rfl, -, hanswers⟩ := answers_of_repeatAnswer hrepeat
        have hparts := hanswers.forall fun _ _ _ hpart => ih hpart
        intro i node hnode
        cases i with
        | zero => exact List.mem_singleton.mp hnode ▸ repeated _ _
        | succ i =>
          obtain ⟨part, hpart, hnode⟩ := List.mem_flatMap.mp hnode
          exact hparts part hpart i node hnode

theorem total_answerTerms_ne_negZero (h : answerTerms Arithmetic.evaluate cs mode tray = (.ok r, after)) :
    r.total ≠ -0 := by
  obtain ⟨-, -, -, tray₁, hrolls, -⟩ := answerTerms_eq_ok h
  generalize r.entries = rolls at hrolls
  rw [answerTerms_of_rollAll hrolls] at h
  split at h
  · next total hvalue =>
    cases h
    exact Arithmetic.evaluate_ne_negZero hvalue
  · split at h
    · cases h
      exact zero_ne_negZero
    · cases h

/-- No total in a result of the usual evaluator is the negative zero, on any level; with any other evaluator, whatever
its values are, no total of a repetition is, not even of one without parts. -/
theorem total_ne_negZero (query : String) (mode : Scoring) (tray : Tray σ) :
    (∀ r after, answer Arithmetic.evaluate query mode tray = (.ok r, after) →
      ∀ i, ∀ node ∈ r.nodesAt i, node.total ≠ -0) ∧
    ∀ evaluator r after, answer evaluator query mode tray = (.ok r, after) →
      ∀ i, ∀ node ∈ r.nodesAt i, node.parts? ≠ none → node.total ≠ -0 := by
  constructor
  · intro r after h
    exact forall_nodesAt (fun _ _ _ _ => total_answerTerms_ne_negZero) (fun _ => zero_ne_negZero)
      (fun _ => sumTotals_ne_negZero) h
  · intro evaluator r after h
    refine forall_nodesAt ?_ ?_ ?_ h
    · intro cs tray after r h hparts
      exact absurd (answerTerms_eq_ok h).2.1 hparts
    · exact fun input hparts => absurd rfl hparts
    · exact fun _ parts _ => sumTotals_ne_negZero parts

/-- Two copies of a product that is the negative zero, and two nodes without parts for an evaluator that knows no other
value. -/
theorem total_ne_negZero_without_parts :
    (∃ r after, answer Arithmetic.evaluate "2x1d6*-0" .sum (.ofDice (Script.always 5)) = (.ok r, after) ∧
      after.evaluated = #["5*-0", "5*-0"] ∧ ∀ node ∈ r.nodesAt 1, node.total ≠ -0) ∧
    ∃ r after, answer (fun _ => .ok (-0)) "2x0x1d6" .sum (.ofDice (Script.always 5)) = (.ok r, after) ∧
      ((r.nodesAt 1).map fun node => node.parts?.map List.length) = [some 0, some 0] ∧
        ∀ node ∈ r.nodesAt 1, node.parts? ≠ none → node.total ≠ -0 := by
  let tray := Tray.ofDice (Script.always 5)
  constructor
  · obtain ⟨husual, -⟩ := total_ne_negZero "2x1d6*-0" .sum tray
    have hok : (answer Arithmetic.evaluate "2x1d6*-0" .sum tray).1.toOption.isSome = true := by decide +kernel
    have htexts : (answer Arithmetic.evaluate "2x1d6*-0" .sum tray).2.evaluated = #["5*-0", "5*-0"] := by
      decide +kernel
    obtain ⟨r, after, h⟩ := exists_of_isSome hok
    rw [h] at htexts
    exact ⟨r, after, h, htexts, husual r after h 1⟩
  · obtain ⟨-, hany⟩ := total_ne_negZero "2x0x1d6" .sum tray
    have hparts : (answer (fun _ => .ok (-0)) "2x0x1d6" .sum tray).1.toOption.map
        (fun r => (r.nodesAt 1).map fun node => node.parts?.map List.length) = some [some 0, some 0] := by
      decide +kernel
    obtain ⟨r, hr, hparts⟩ := Option.map_eq_some_iff.mp hparts
    obtain ⟨_, after, h⟩ := exists_of_isSome (Option.isSome_of_eq_some hr)
    rw [h] at hr
    cases hr
    exact ⟨r, after, h, hparts, hany _ r after h 1⟩

end Query

end Tabletop

/-!
The order of texts. Texts are ordered by their code points. Main statement: the bytes of their UTF-8 encodings
are in the same order, because of two characters the lesser one has the lesser bytes, however many.
-/

namespace Tabletop.Text

/-- The bytes of a text in UTF-8. -/
def bytes (text : String) : List UInt8 := text.toUTF8.data.toList

theorem bytes_ofList (cs : List Char) : bytes (String.ofList cs) = cs.flatMap String.utf8EncodeChar := by
  rw [bytes, String.toUTF8, String.toByteArray_ofList, List.utf8Encode, List.toList_data_toByteArray]

variable {a b : Nat} {s t : List UInt8}

theorem ofNat_cons_lt (ha : a < 256) (hb : b < 256) (h : a < b) :
    UInt8.ofNat a :: s < UInt8.ofNat b :: t :=
  List.cons_lt_cons_iff.mpr (.inl ((UInt8.ofNat_lt_iff_lt ha hb).mpr h))

theorem ofNat_cons_le (ha : a < 256) (hb : b < 256) (h : a ≤ b) (hst : a = b → s < t) :
    UInt8.ofNat a :: s < UInt8.ofNat b :: t := by
  rcases Nat.lt_or_eq_of_le h with hlt | rfl
  · exact ofNat_cons_lt ha hb hlt
  · exact List.cons_lt_cons_iff.mpr (.inr ⟨rfl, hst rfl⟩)

/-- The lesser of two characters has the lesser bytes, whatever is behind them. -/
theorem utf8EncodeChar_append_lt {c d : Char} (h : c < d) (s t : List UInt8) :
    String.utf8EncodeChar c ++ s < String.utf8EncodeChar d ++ t := by
  have hlt : c.val.toNat < d.val.toNat := UInt32.lt_iff_toNat_lt.mp (Char.lt_def.mp h)
  have hd : d.val.toNat < 0x110000 := by
    rcases d.valid with h | ⟨-, h⟩ <;> omega
  unfold String.utf8EncodeChar
  generalize c.val.toNat = m at *
  generalize d.val.toNat = n at *
  -- One byte to four for `m`; for `n` it takes no fewer, and the first byte tells how many there are.
  dsimp only
  split
  · repeat' split
    all_goals exact ofNat_cons_lt (by omega) (by omega) (by omega)
  · rw [if_neg (by omega : ¬ n ≤ 0x7f)]
    split
    · split
      · refine ofNat_cons_le (by omega) (by omega) (by omega) fun _ => ?_
        exact ofNat_cons_lt (by omega) (by omega) (by omega)
      · split
        all_goals exact ofNat_cons_lt (by omega) (by omega) (by omega)
    · rw [if_neg (by omega : ¬ n ≤ 0x7ff)]
      split
      · split
        · refine ofNat_cons_le (by omega) (by omega) (by omega) fun _ => ?_
          refine ofNat_cons_le (by omega) (by omega) (by omega) fun _ => ?_
          exact ofNat_cons_lt (by omega) (by omega) (by omega)
        · exact ofNat_cons_lt (by omega) (by omega) (by omega)
      · rw [if_neg (by omega : ¬ n ≤ 0xffff)]
        refine ofNat_cons_le (by omega) (by omega) (by omega) fun _ => ?_
        refine ofNat_cons_le (by omega) (by omega) (by omega) fun _ => ?_
        refine ofNat_cons_le (by omega) (by omega) (by omega) fun _ => ?_
        exact ofNat_cons_lt (by omega) (by omega) (by omega)

theorem flatMap_utf8EncodeChar_lt {cs ds : List Char} (h : cs < ds) :
    cs.flatMap String.utf8EncodeChar < ds.flatMap String.utf8EncodeChar := by
  induction h with
  | nil =>
    rw [List.flatMap_cons]
    obtain ⟨x, xs, hx⟩ := List.exists_cons_of_ne_nil String.utf8EncodeChar_ne_nil
    rw [hx]
    exact List.nil_lt_cons ..
  | cons _ ih => exact List.append_left_lt ih
  | rel hlt => exact utf8EncodeChar_append_lt hlt _ _

/-- The order of texts is that of their bytes. -/
theorem bytes_lt_bytes {a b : String} (h : a < b) : bytes a < bytes b := by
  rw [← a.ofList_toList, ← b.ofList_toList, bytes_ofList, bytes_ofList]
  exact flatMap_utf8EncodeChar_lt (String.lt_iff.mp h)

end Tabletop.Text

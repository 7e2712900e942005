/-
# The order of texts is the order of their bytes

Texts are compared character by character. The characters of a text are written in UTF-8 so
that the order of what is written, byte by byte, is the same (`Text.compare_eq_lt_iff`): of
two characters the first byte that differs decides, and it is the greater one's that is
greater (`Text.encode_lt_encode`).

Key definitions: `Text.bytes`.
Key theorems: `Text.encode_lt_encode`, `Text.compare_eq_lt_iff`.
-/
import Mathlib.Data.String.Basic

namespace QueryFilter
namespace Text

/-- The bytes of a text in UTF-8. -/
def bytes (s : String) : List UInt8 := s.toByteArray.data.toList

theorem bytes_eq_flatMap (s : String) : bytes s = s.toList.flatMap String.utf8EncodeChar := by
  unfold bytes
  rw [← String.utf8Encode_toList, List.utf8Encode, List.toList_data_toByteArray]

/-- What is written for a character comes before what is written for a greater one, whatever
stands behind them. -/
theorem encode_lt_encode {c d : Char} (h : c < d) (xs ys : List UInt8) :
    String.utf8EncodeChar c ++ xs < String.utf8EncodeChar d ++ ys := by
  have hlt : c.val.toNat < d.val.toNat := h
  have hc : c.val.toNat < 1114112 := by
    have := c.valid
    unfold UInt32.isValidChar Nat.isValidChar at this
    omega
  have hd : d.val.toNat < 1114112 := by
    have := d.valid
    unfold UInt32.isValidChar Nat.isValidChar at this
    omega
  unfold String.utf8EncodeChar
  generalize c.val.toNat = m at *
  generalize d.val.toNat = n at *
  dsimp only
  -- A longer encoding starts with a greater byte, and two of one length are digits to base 64.
  split_ifs <;>
    simp only [List.cons_append, List.nil_append, List.cons_lt_cons_iff, UInt8.lt_iff_toNat_lt,
      ← UInt8.toNat_inj, UInt8.toNat_ofNat'] <;>
    simp (disch := omega) only [Nat.mod_eq_of_lt] <;>
    omega

theorem bytes_lt_of_lt : ∀ {cs ds : List Char}, cs < ds →
    cs.flatMap String.utf8EncodeChar < ds.flatMap String.utf8EncodeChar
  | [], d :: ds, _ => by
    rw [List.flatMap_nil, List.flatMap_cons]
    cases hd : String.utf8EncodeChar d with
    | nil => exact absurd hd String.utf8EncodeChar_ne_nil
    | cons b rest => exact List.nil_lt_cons _ _
  | c :: cs, d :: ds, h => by
    rw [List.flatMap_cons, List.flatMap_cons]
    rcases List.cons_lt_cons_iff.mp h with hlt | ⟨rfl, hrest⟩
    · exact encode_lt_encode hlt _ _
    · exact List.append_left_lt (bytes_lt_of_lt hrest)

theorem compare_eq_lt_iff_lt {s t : String} : compare s t = .lt ↔ s < t :=
  compareOfLessAndEq_eq_lt

/-- **Texts as bytes.** A text comes before another one exactly if its bytes do. -/
theorem compare_eq_lt_iff {s t : String} : compare s t = .lt ↔ bytes s < bytes t := by
  have hbytes : ∀ {s t : String}, s < t → bytes s < bytes t := by
    intro s t h
    rw [bytes_eq_flatMap, bytes_eq_flatMap]
    exact bytes_lt_of_lt h
  rw [compare_eq_lt_iff_lt]
  refine ⟨hbytes, fun h => ?_⟩
  rcases lt_trichotomy s t with hlt | rfl | hgt
  · exact hlt
  · exact absurd h (List.lt_irrefl _)
  · exact absurd (List.lt_trans h (hbytes hgt)) (List.lt_irrefl _)

end Text
end QueryFilter

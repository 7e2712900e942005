/-
# Blanks around a text

What trimming takes off are blanks (`Text.exists_surrounded`), and it takes off all blanks
around a text with none at its ends (`Text.trimChars_surrounded`).

Key theorems: `Text.trimEnd_eq_self`, `Text.trimChars_surrounded`, `Text.exists_surrounded`.
-/
import Mathlib.Data.List.TakeWhile
import QueryFilter.Text.Blank

namespace QueryFilter
namespace Text

/-- A text that does not end with a blank keeps its end. -/
theorem trimEnd_eq_self {cs : List Char} (h : ∀ ch ∈ cs.getLast?, isBlank ch = false) :
    trimEnd cs = cs := by
  rw [trimEnd]
  cases hrev : cs.reverse with
  | nil => rw [List.dropWhile_nil, ← hrev, List.reverse_reverse]
  | cons ch rest =>
    have hlast : cs.getLast? = some ch := by rw [← List.head?_reverse, hrev, List.head?_cons]
    rw [List.dropWhile_cons_of_neg (by simp [h ch hlast]), ← hrev, List.reverse_reverse]

/-- Blanks around a text are taken off, and no more if none are at its ends. -/
theorem trimChars_surrounded {front cs back : List Char}
    (hfront : ∀ ch ∈ front, isBlank ch = true) (hback : ∀ ch ∈ back, isBlank ch = true)
    (hne : cs ≠ []) (hhead : ∀ ch ∈ cs.head?, isBlank ch = false)
    (hlast : ∀ ch ∈ cs.getLast?, isBlank ch = false) : trimChars (front ++ cs ++ back) = cs := by
  have hbegin : (front ++ cs ++ back).dropWhile isBlank = cs ++ back := by
    rw [List.append_assoc, List.dropWhile_append_of_pos hfront]
    cases cs with
    | nil => exact absurd rfl hne
    | cons ch rest => exact List.dropWhile_cons_of_neg (by simp [hhead ch rfl])
  have hend : trimEnd (cs ++ back) = trimEnd cs := by
    have hback' : ∀ ch ∈ back.reverse, isBlank ch = true := fun ch hch =>
      hback ch (List.mem_reverse.mp hch)
    rw [trimEnd, List.reverse_append, List.dropWhile_append_of_pos hback', trimEnd]
  rw [trimChars, hbegin, hend, trimEnd_eq_self hlast]

/-- What is taken off the end is blank. -/
theorem exists_trimEnd (cs : List Char) :
    ∃ back, (∀ ch ∈ back, isBlank ch = true) ∧ cs = trimEnd cs ++ back := by
  refine ⟨(cs.reverse.takeWhile isBlank).reverse, fun ch hch => ?_, ?_⟩
  · exact List.mem_takeWhile_imp (List.mem_reverse.mp hch)
  · rw [trimEnd, ← List.reverse_append, List.takeWhile_append_dropWhile, List.reverse_reverse]

/-- **Trimming** takes blanks off the two ends. -/
theorem exists_surrounded (cs : List Char) :
    ∃ front back, (∀ ch ∈ front, isBlank ch = true) ∧ (∀ ch ∈ back, isBlank ch = true) ∧
      cs = front ++ trimChars cs ++ back := by
  obtain ⟨back, hback, hcs⟩ := exists_trimEnd (cs.dropWhile isBlank)
  refine ⟨cs.takeWhile isBlank, back, fun ch hch => List.mem_takeWhile_imp hch, hback, ?_⟩
  calc
    cs = cs.takeWhile isBlank ++ cs.dropWhile isBlank := List.takeWhile_append_dropWhile.symm
    _ = cs.takeWhile isBlank ++ (trimChars cs ++ back) := by rw [trimChars, ← hcs]
    _ = cs.takeWhile isBlank ++ trimChars cs ++ back := (List.append_assoc _ _ _).symm

end Text
end QueryFilter

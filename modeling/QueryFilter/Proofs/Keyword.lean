/-
# Which texts are words

The symbols that are read as one comparison are its spellings
(`OperatorKind.ofSymbol?_eq_some_iff`). All words have letters in them, so the key of a
place in a list is none of them.

Key definitions: `OperatorKind.spellings`.
Key theorems: `OperatorKind.ofSymbol?_eq_some_iff`, `OperatorKind.isSymbol_iff`,
`Modifier.ofKey?_eq_some_iff`,
`Junction.ofName?_of_mem`, `isDigit_indexKey`, `Modifier.ofKey?_of_digits`,
`OperatorKind.ofSymbol?_of_digits`, `Junction.ofName?_of_digits`.
-/
import QueryFilter.Input

namespace QueryFilter

namespace OperatorKind

/-- The symbols that are read as a comparison, the one that counts first. -/
def spellings : OperatorKind → List String
  | .isIn => ["in_", "in"]
  | .notIn => ["not_in", "nin"]
  | kind => [kind.symbol]

theorem ofWritten?_eq_some {s : String} {kind : OperatorKind} (h : ofWritten? s = some kind) :
    kind.symbol = s := by
  simpa using List.find?_some h

theorem ofSymbol?_eq_some_iff {s : String} {kind : OperatorKind} :
    ofSymbol? s = some kind ↔ s ∈ kind.spellings := by
  constructor
  · intro h
    unfold ofSymbol? at h
    split at h
    · rename_i hs
      cases h
      simp [spellings, hs]
    · split at h
      · rename_i hs
        cases h
        simp [spellings, hs]
      · rw [← ofWritten?_eq_some h]
        cases kind <;> decide
  · revert s
    cases kind <;> decide

/-- The symbols are the spellings of the comparisons. -/
theorem isSymbol_iff {s : String} :
    isSymbol s = true ↔ ∃ kind : OperatorKind, s ∈ kind.spellings := by
  simp only [isSymbol, Option.isSome_iff_exists, ofSymbol?_eq_some_iff]

theorem isSymbol_eq_false_iff {s : String} :
    isSymbol s = false ↔ ∀ kind : OperatorKind, s ∉ kind.spellings := by
  rw [← Bool.not_eq_true, isSymbol_iff, not_exists]

end OperatorKind

theorem Modifier.ofKey?_eq_some_iff {s : String} {m : Modifier} : ofKey? s = some m ↔ s = m.key := by
  constructor
  · intro h
    have hkey : m.key = s := by simpa using List.find?_some h
    exact hkey.symm
  · rintro rfl
    exact ofKey?_key m

/-- A text with a character that is in no name of a junction names none. -/
theorem Junction.ofName?_of_mem {s : String} {ch : Char} (hch : ch ∈ s.toList)
    (hnone : ch.toLower ∉ ['a', 'n', 'd', 'o', 'r']) : ofName? s = none := by
  have hmem : ch.toLower ∈ s.toList.map Char.toLower := List.mem_map_of_mem hch
  rw [ofName?, if_neg, if_neg]
  · intro heq
    rw [heq] at hmem
    exact hnone (List.mem_append_right ['a', 'n', 'd'] hmem)
  · intro heq
    rw [heq] at hmem
    exact hnone (List.mem_append_left ['o', 'r'] hmem)

/-! ### Texts of digits -/

/-- The key of a place in a list has only digits. -/
theorem isDigit_indexKey (index : Nat) : ∀ ch ∈ (indexKey index).toList, ch.isDigit = true := by
  intro ch hch
  rw [indexKey, String.toList_ofList] at hch
  exact Nat.isDigit_of_mem_toDigits (by decide) (by decide) hch

variable {s : String} (h : ∀ ch ∈ s.toList, ch.isDigit = true)
include h

theorem ne_of_letter {word : String} (hword : word.toList.all Char.isDigit = false) : s ≠ word := by
  rintro rfl
  rw [List.all_eq_true.mpr h] at hword
  cases hword

theorem Modifier.ofKey?_of_digits : ofKey? s = none := by
  cases hm : ofKey? s with
  | none => rfl
  | some m =>
    have hletter : m.key.toList.all Char.isDigit = false := by cases m <;> decide
    exact absurd (ofKey?_eq_some_iff.mp hm) (ne_of_letter h hletter)

theorem OperatorKind.ofSymbol?_of_digits : ofSymbol? s = none := by
  have hletters : ∀ kind : OperatorKind, ∀ symbol ∈ kind.spellings,
      symbol.toList.all Char.isDigit = false := by
    intro kind
    cases kind <;> decide
  cases hk : ofSymbol? s with
  | none => rfl
  | some kind =>
    have hletter := hletters kind s (ofSymbol?_eq_some_iff.mp hk)
    exact absurd rfl (ne_of_letter h hletter)

theorem Junction.ofName?_of_digits : ofName? s = none := by
  have hlower : ∀ ch ∈ s.toList, ch.toLower = ch := by
    intro ch hch
    have hdigit := h ch hch
    simp only [Char.isDigit, Bool.and_eq_true, decide_eq_true_eq] at hdigit
    refine dif_neg fun hupper => ?_
    exact absurd (UInt32.le_trans hupper.1 hdigit.2) (by decide)
  have hletter : ∀ ch ∈ s.toList, ch ≠ 'a' ∧ ch ≠ 'o' := by
    intro ch hch
    have hdigit := h ch hch
    constructor <;> (rintro rfl; revert hdigit; decide)
  rw [ofName?, List.map_congr_left hlower, List.map_id', if_neg, if_neg]
  · intro heq
    exact (hletter 'o' (by rw [heq]; exact List.mem_cons_self)).2 rfl
  · intro heq
    exact (hletter 'a' (by rw [heq]; exact List.mem_cons_self)).1 rfl

end QueryFilter

/-
# Counts

A limit and an offset are counts of 64 bits. They are given as integers, or as
text: an optional plus sign and decimal digits, with blanks at the ends.

Key definitions: `Count.parse?`, `Count.ofValue?`.
Key theorems: `Count.ofDigits?_eq_some`.
-/
import QueryFilter.Text.Blank
import QueryFilter.Value.Basic

namespace QueryFilter
namespace Count

/-- The count that digits denote, if there are any and 64 bits hold it. -/
def ofDigits? (cs : List Char) : Option UInt64 :=
  if cs ≠ [] ∧ cs.all Char.isDigit then
    let n := Decimal.natOf cs
    if n < Nat.pow 2 64 then some (UInt64.ofNat n) else none
  else none

/-- The count of a text without blanks at its ends. -/
def ofTrimmed? : List Char → Option UInt64
  | '+' :: cs => ofDigits? cs
  | cs => ofDigits? cs

/-- The count of a text. -/
def parse? (s : String) : Option UInt64 := ofTrimmed? (Text.trimChars s.toList)

/-- The count that a value is. -/
def ofValue? : Value → Option UInt64
  | .int i => if 0 ≤ i.toInt then some (UInt64.ofNat i.toInt.toNat) else none
  | .uint u => some u
  | .string s => parse? s
  | _ => none

theorem ofDigits?_eq_some {cs : List Char} {n : UInt64} :
    ofDigits? cs = some n ↔
      cs ≠ [] ∧ (∀ c ∈ cs, c.isDigit = true) ∧ Decimal.natOf cs = n.toNat := by
  unfold ofDigits?
  split
  · rename_i h
    rw [List.all_eq_true] at h
    simp only
    split
    · rename_i hn
      rw [Option.some.injEq]
      refine ⟨fun he => ⟨h.1, h.2, ?_⟩, fun ⟨_, _, he⟩ => ?_⟩
      · rw [← he, UInt64.toNat_ofNat', Nat.mod_eq_of_lt hn]
      · rw [he, UInt64.ofNat_toNat]
    · rename_i hn
      rw [Nat.pow_eq] at hn
      refine ⟨fun he => (by cases he), fun ⟨_, _, he⟩ => ?_⟩
      have := n.toNat_lt
      omega
  · rename_i h
    rw [List.all_eq_true] at h
    exact ⟨fun he => (by cases he), fun ⟨h1, h2, _⟩ => absurd ⟨h1, h2⟩ h⟩

end Count
end QueryFilter

/-
# What is read as a count

A limit and an offset are read from an integer, or from a text in which digits stand,
behind a plus sign or not, with blanks around them. `Count.Denotes` says which number each
value stands for, however large. A node is read as the number it stands for, up to the
largest that 64 bits hold; a node that stands for none, or for a larger one, is refused
(`Compiler.countOf_exact`).

Digits and signs are no blanks, so trimming a text takes off just what stands around them
(`Count.parse?_eq_some_iff`).

Key definitions: `Count.Numeral`, `Count.Denotes`, `InputNode.IsCount`.
Key theorems: `Count.numeral_iff`, `Count.parse?_eq_some_iff`, `Count.ofValue?_eq_some_iff`,
`Compiler.countOf_exact`.
-/
import Mathlib.Data.List.Induction
import QueryFilter.Compiler
import QueryFilter.Proofs.Text.Blank

namespace QueryFilter
namespace Count

variable {cs : List Char} {n : Nat} {u : UInt64}

/-! ### Digits -/

/-- A text of digits, and the number that it is in base ten. -/
inductive Numeral : List Char → Nat → Prop
  | one {c : Char} (hc : c.isDigit = true) : Numeral [c] (c.toNat - '0'.toNat)
  | more {cs : List Char} {n : Nat} {c : Char} (h : Numeral cs n) (hc : c.isDigit = true) :
    Numeral (cs ++ [c]) (10 * n + (c.toNat - '0'.toNat))

theorem natOf_append_singleton (cs : List Char) (c : Char) :
    Decimal.natOf (cs ++ [c]) = 10 * Decimal.natOf cs + (c.toNat - '0'.toNat) := by
  simp only [Decimal.natOf, Nat.ofDigitChars_append, Nat.ofDigitChars_cons, Nat.ofDigitChars_nil]

/-- Digits, and at least one, are a numeral of the number that they are read as. -/
theorem numeral_iff :
    Numeral cs n ↔ cs ≠ [] ∧ (∀ c ∈ cs, c.isDigit = true) ∧ Decimal.natOf cs = n := by
  constructor
  · intro h
    induction h with
    | one hc => simp [hc, Decimal.natOf, Nat.ofDigitChars_cons]
    | @more cs n c _ hc ih =>
      obtain ⟨-, hall, hn⟩ := ih
      refine ⟨by simp, fun d hd => ?_, by rw [natOf_append_singleton, hn]⟩
      rcases List.mem_append.mp hd with hd | hd
      · exact hall d hd
      · rwa [List.mem_singleton.mp hd]
  · rintro ⟨hne, hall, rfl⟩
    induction cs using List.reverseRecOn with
    | nil => exact absurd rfl hne
    | append_singleton cs c ih =>
      have hc : c.isDigit = true := hall c (by simp)
      cases cs with
      | nil => simpa [Decimal.natOf, Nat.ofDigitChars_cons] using Numeral.one hc
      | cons d rest =>
        rw [natOf_append_singleton]
        exact .more (ih (by simp) fun x hx => hall x (List.mem_append_left _ hx)) hc

theorem ofDigits?_eq_some_iff : ofDigits? cs = some u ↔ Numeral cs u.toNat := by
  rw [ofDigits?_eq_some, numeral_iff]

/-! ### Texts -/

theorem isBlank_of_isDigit {c : Char} (h : c.isDigit = true) : Text.isBlank c = false := by
  have hlow : 48 ≤ c.toNat := by
    simp only [Char.isDigit, Bool.and_eq_true, decide_eq_true_eq] at h
    exact UInt32.le_iff_toNat_le.mp h.1
  have hhigh : c.toNat ≤ 57 := by
    simp only [Char.isDigit, Bool.and_eq_true, decide_eq_true_eq] at h
    exact UInt32.le_iff_toNat_le.mp h.2
  simp only [Text.isBlank, Bool.or_eq_false_iff, Bool.and_eq_false_iff, decide_eq_false_iff_not,
    beq_eq_false_iff_ne]
  omega

/-- What may stand in front of the digits. -/
def IsSign (sign : List Char) : Prop := sign = [] ∨ sign = ['+']

theorem ofTrimmed?_eq_some_iff : ofTrimmed? cs = some u ↔
    ∃ sign digits, IsSign sign ∧ cs = sign ++ digits ∧ Numeral digits u.toNat := by
  constructor
  · intro h
    unfold ofTrimmed? at h
    split at h
    · rename_i digits
      exact ⟨['+'], digits, .inr rfl, rfl, ofDigits?_eq_some_iff.mp h⟩
    · exact ⟨[], cs, .inl rfl, rfl, ofDigits?_eq_some_iff.mp h⟩
  · rintro ⟨sign, digits, rfl | rfl, rfl, h⟩
    · rw [← ofDigits?_eq_some_iff.mpr h]
      unfold ofTrimmed?
      split
      · -- A plus sign is no digit.
        have hplus := (numeral_iff.mp h).2.1 '+' List.mem_cons_self
        exact absurd hplus (by decide)
      · rfl
    · exact ofDigits?_eq_some_iff.mpr h

/-- A sign and digits have no blanks at their ends. -/
theorem Numeral.trimChars {front sign digits back : List Char} (h : Numeral digits n)
    (hsign : IsSign sign) (hfront : ∀ ch ∈ front, Text.isBlank ch = true)
    (hback : ∀ ch ∈ back, Text.isBlank ch = true) :
    Text.trimChars (front ++ (sign ++ digits) ++ back) = sign ++ digits := by
  obtain ⟨hne, hall, -⟩ := numeral_iff.mp h
  have hblank : ∀ ch ∈ sign ++ digits, Text.isBlank ch = false := by
    intro ch hch
    rcases List.mem_append.mp hch with hch | hch
    · rcases hsign with rfl | rfl
      · cases hch
      · rw [List.mem_singleton.mp hch]
        decide
    · exact isBlank_of_isDigit (hall ch hch)
  refine Text.trimChars_surrounded hfront hback (by simp [hne]) ?_ ?_
  · exact fun ch hch => hblank ch (List.mem_of_mem_head? hch)
  · exact fun ch hch => hblank ch (List.mem_of_mem_getLast? hch)

/-- **Texts.** A text is read as a count if it is a numeral, behind a plus sign or not, with
blanks around. -/
theorem parse?_eq_some_iff {s : String} :
    parse? s = some u ↔ ∃ front sign digits back, s.toList = front ++ (sign ++ digits) ++ back ∧
      (∀ ch ∈ front, Text.isBlank ch = true) ∧ (∀ ch ∈ back, Text.isBlank ch = true) ∧
      IsSign sign ∧ Numeral digits u.toNat := by
  rw [parse?, ofTrimmed?_eq_some_iff]
  constructor
  · rintro ⟨sign, digits, hsign, htrim, h⟩
    obtain ⟨front, back, hfront, hback, hs⟩ := Text.exists_surrounded s.toList
    rw [htrim] at hs
    exact ⟨front, sign, digits, back, hs, hfront, hback, hsign, h⟩
  · rintro ⟨front, sign, digits, back, hs, hfront, hback, hsign, h⟩
    exact ⟨sign, digits, hsign, by rw [hs, h.trimChars hsign hfront hback], h⟩

/-! ### Values and nodes -/

/-- The number that a value stands for: an integer for itself, and a text for the numeral in
it. No other value stands for a number. -/
inductive Denotes : Value → Nat → Prop
  | int {i : Int64} {n : Nat} (h : i.toInt = n) : Denotes (.int i) n
  | uint (u : UInt64) : Denotes (.uint u) u.toNat
  | text {s : String} {front sign digits back : List Char} {n : Nat}
    (hs : s.toList = front ++ (sign ++ digits) ++ back)
    (hfront : ∀ ch ∈ front, Text.isBlank ch = true) (hback : ∀ ch ∈ back, Text.isBlank ch = true)
    (hsign : IsSign sign) (h : Numeral digits n) : Denotes (.string s) n

theorem ofValue?_int_eq_some_iff {i : Int64} : ofValue? (.int i) = some u ↔ i.toInt = u.toNat := by
  have hi : i.toInt < 2 ^ 63 := i.toInt_lt
  have hu := u.toNat_lt
  rw [ofValue?]
  split
  · rename_i hnonneg
    rw [Option.some.injEq, ← UInt64.toNat_inj, UInt64.toNat_ofNat']
    omega
  · constructor
    · intro h
      cases h
    · omega

/-- **Values.** A value is read as the count that it stands for. -/
theorem ofValue?_eq_some_iff {v : Value} : ofValue? v = some u ↔ Denotes v u.toNat := by
  constructor
  · intro h
    cases v with
    | int i => exact .int (ofValue?_int_eq_some_iff.mp h)
    | uint w =>
      cases h
      exact .uint u
    | string s =>
      obtain ⟨front, sign, digits, back, hs, hfront, hback, hsign, h⟩ := parse?_eq_some_iff.mp h
      exact .text hs hfront hback hsign h
    | null | bool _ | float _ | array _ => cases h
  · intro h
    generalize hn : u.toNat = n at h
    cases h with
    | int h => exact ofValue?_int_eq_some_iff.mpr (by rw [h, hn])
    | uint => rw [ofValue?, UInt64.toNat_inj.mp hn]
    | text hs hfront hback hsign h =>
      exact parse?_eq_some_iff.mpr ⟨_, _, _, _, hs, hfront, hback, hsign, hn ▸ h⟩

end Count

/-- Whether a node stands for a number that 64 bits hold. -/
def InputNode.IsCount (node : InputNode) (n : Nat) : Prop :=
  n < Nat.pow 2 64 ∧ ∃ v, node.value? = some v ∧ Count.Denotes v n

namespace Compiler

theorem countOf_eq_ok_iff {modifier : Modifier} {node : InputNode} {u : UInt64} :
    countOf modifier node = .ok u ↔ node.IsCount u.toNat := by
  have hcount : countOf modifier node = .ok u ↔ node.value?.bind Count.ofValue? = some u := by
    unfold countOf
    split <;> simp [*]
  simp only [hcount, Option.bind_eq_some_iff, Count.ofValue?_eq_some_iff, InputNode.IsCount,
    u.toNat_lt, true_and]

/-- **Counts are read exactly.** What stands under a modifier is read as the number that it
stands for, if 64 bits hold that, and the number read is never another one. Everything else
is refused, as a value of the wrong kind. -/
theorem countOf_exact (modifier : Modifier) (node : InputNode) :
    (∀ u, countOf modifier node = .ok u ↔ node.IsCount u.toNat) ∧
    ((∃ u, countOf modifier node = .ok u) ↔ ∃ n, node.IsCount n) ∧
    (countOf modifier node = .error (.countRequired modifier) ↔ ¬ ∃ n, node.IsCount n) ∧
    (FilterError.countRequired modifier).kind = .invalidValueType := by
  have hsome : (∃ u, countOf modifier node = .ok u) ↔ ∃ n, node.IsCount n := by
    constructor
    · rintro ⟨u, hu⟩
      exact ⟨u.toNat, countOf_eq_ok_iff.mp hu⟩
    · rintro ⟨n, hn⟩
      have hback : (UInt64.ofNat n).toNat = n := UInt64.toNat_ofNat_of_lt' hn.1
      exact ⟨UInt64.ofNat n, countOf_eq_ok_iff.mpr (by rwa [hback])⟩
  refine ⟨fun u => countOf_eq_ok_iff, hsome, ?_, rfl⟩
  rw [← hsome]
  unfold countOf
  split <;> simp

end Compiler
end QueryFilter

/-
# Integers in TOML text

The decimal digits of a natural number, up to the end of their line, are read as that number
if 64 bits hold it with a sign (`Toml.readPlain_toDigits`). Nothing else can be read there: a
date has a dash behind its first digits and a time a colon, a number in another base has its
mark behind the zero, and a zero in front of other digits, which is refused, is never written
(`Toml.head_toDigits`).

Key theorems: `Toml.readMoment_eq_none`, `Toml.readDigits_append`, `Toml.head_toDigits`,
`Toml.readPlain_toDigits`.
-/
import Mathlib.Data.List.Basic
import QueryFilter.Toml.Reader

namespace QueryFilter
namespace Toml

variable {cs ds rest : List Char} {c : Char} {n : Nat}

/-! ### No dates and times -/

theorem dropWhile_isDigit_append (hds : ∀ d ∈ ds, d.isDigit = true) (hc : c.isDigit = false) :
    (ds ++ c :: rest).dropWhile Char.isDigit = c :: rest := by
  rw [List.dropWhile_append_of_pos hds, List.dropWhile_cons_of_neg (by simp [hc])]

/-- A date has a dash behind its first digits. -/
theorem readDate_eq_none (h : (cs.dropWhile Char.isDigit).head? ≠ some '-') :
    readDate cs = none := by
  unfold readDate
  split
  · rename_i a b c d e f g k rest
    refine if_neg fun hall => h ?_
    have hdigits : ∀ x ∈ [a, b, c, d], x.isDigit = true := fun x hx =>
      List.all_eq_true.mp hall.1 x (List.mem_append_left [e, f, g, k] hx)
    have hdash : ([a, b, c, d] ++ '-' :: e :: f :: '-' :: g :: k :: rest).dropWhile Char.isDigit =
        '-' :: e :: f :: '-' :: g :: k :: rest := dropWhile_isDigit_append hdigits (by decide)
    exact congrArg List.head? hdash
  · rfl

/-- A time has a colon behind its first digits. -/
theorem readClock_eq_none (h : (cs.dropWhile Char.isDigit).head? ≠ some ':') :
    readClock cs = none := by
  unfold readClock
  split
  · rename_i a b c d e f rest
    refine if_neg fun hall => h ?_
    have hdigits : ∀ x ∈ [a, b], x.isDigit = true := fun x hx =>
      List.all_eq_true.mp hall.1 x (List.mem_append_left [c, d, e, f] hx)
    have hcolon : ([a, b] ++ ':' :: c :: d :: ':' :: e :: f :: rest).dropWhile Char.isDigit =
        ':' :: c :: d :: ':' :: e :: f :: rest := dropWhile_isDigit_append hdigits (by decide)
    exact congrArg List.head? hcolon
  · rfl

/-- Digits up to the end of a line are no date and no time. -/
theorem readMoment_eq_none (hds : ∀ d ∈ ds, d.isDigit = true) :
    readMoment (ds ++ '\n' :: rest) = none := by
  have hend : ((ds ++ '\n' :: rest).dropWhile Char.isDigit).head? = some '\n' := by
    rw [dropWhile_isDigit_append hds (by decide), List.head?_cons]
  have hdate : readDate (ds ++ '\n' :: rest) = none := readDate_eq_none (by rw [hend]; decide)
  have hclock : readClock (ds ++ '\n' :: rest) = none := readClock_eq_none (by rw [hend]; decide)
  rw [readMoment, hdate, hclock]
  rfl

/-! ### Digits -/

theorem ne_of_isDigit {d x : Char} (hd : d.isDigit = true) (hx : x.isDigit = false) : d ≠ x := by
  rintro rfl
  rw [hd] at hx
  cases hx

theorem moreDigits_append : ∀ {ds : List Char}, (∀ d ∈ ds, d.isDigit = true) →
    moreDigits Char.isDigit (ds ++ '\n' :: rest) = some (ds, '\n' :: rest)
  | [], _ => by
    rw [List.nil_append]
    unfold moreDigits
    rfl
  | d :: ds, h => by
    obtain ⟨hd, hds⟩ := List.forall_mem_cons.mp h
    have hne : d ≠ '_' := ne_of_isDigit hd (by decide)
    rw [List.cons_append, moreDigits, if_pos hd, moreDigits_append hds]
    · rfl
    · exact fun hd' => absurd hd' hne
    · exact fun _ _ hd' => absurd hd' hne

/-- Digits are read up to the end of their line. -/
theorem readDigits_append (hne : ds ≠ []) (hds : ∀ d ∈ ds, d.isDigit = true) :
    readDigits Char.isDigit (ds ++ '\n' :: rest) = some (ds, '\n' :: rest) := by
  cases ds with
  | nil => exact absurd rfl hne
  | cons d ds =>
    obtain ⟨hd, hds⟩ := List.forall_mem_cons.mp hds
    rw [List.cons_append, readDigits, if_pos hd, moreDigits_append hds]
    rfl

theorem isDigit_toDigits (n : Nat) : ∀ d ∈ Nat.toDigits 10 n, d.isDigit = true := fun _ hd =>
  Nat.isDigit_of_mem_toDigits (by decide) (by decide) hd

/-- A number begins with a digit. -/
theorem exists_toDigits (n : Nat) : ∃ d ds, Nat.toDigits 10 n = d :: ds ∧ d.isDigit = true := by
  cases hds : Nat.toDigits 10 n with
  | nil => exact absurd hds Nat.toDigits_ne_nil
  | cons d ds => exact ⟨d, ds, rfl, isDigit_toDigits n d (by rw [hds]; exact List.mem_cons_self)⟩

/-- Only zero is written with a zero in front. -/
theorem head_toDigits {n : Nat} (hn : 0 < n) : (Nat.toDigits 10 n).head? ≠ some '0' := by
  induction n using Nat.strongRecOn with
  | ind n ih =>
    rw [Nat.toDigits_eq_if (by decide)]
    by_cases hsmall : n < 10
    · rw [if_pos hsmall, List.head?_cons]
      intro h
      have hzero : n = 0 := by
        have hdigit : ∀ m < 10, 0 < m → Nat.digitChar m ≠ '0' := by decide
        exact absurd (Option.some.inj h) (hdigit n hsmall hn)
      omega
    · have hfront : Nat.toDigits 10 (n / 10) ≠ [] := Nat.toDigits_ne_nil
      rw [if_neg hsmall, List.head?_append_of_ne_nil _ hfront]
      exact ih (n / 10) (by omega) (by omega)

theorem readWhole_toDigits (n : Nat) :
    readWhole (Nat.toDigits 10 n ++ '\n' :: rest) = some (Nat.toDigits 10 n, '\n' :: rest) := by
  rcases Nat.eq_zero_or_pos n with rfl | hn
  · rfl
  · have hread : readDigits Char.isDigit (Nat.toDigits 10 n ++ '\n' :: rest) =
        some (Nat.toDigits 10 n, '\n' :: rest) :=
      readDigits_append Nat.toDigits_ne_nil (isDigit_toDigits n)
    have hhead := head_toDigits hn
    obtain ⟨d, ds, hds, -⟩ := exists_toDigits n
    rw [hds] at hread hhead ⊢
    rw [List.cons_append] at hread ⊢
    rw [readWhole, hread]
    intro _ hzero
    exact hhead (congrArg some (List.cons.inj hzero).1)

/-! ### Numbers -/

theorem integer?_of_lt (hn : n < Nat.pow 2 63) : integer? (n : Int) = some (.integer n) := by
  have hlarge : Nat.pow 2 63 = 9223372036854775808 := rfl
  have hlarge' : Int.pow 2 63 = 9223372036854775808 := rfl
  rw [hlarge] at hn
  rw [integer?, hlarge', if_pos (by omega)]

/-- A number with neither a point nor a power of ten is read as an integer. -/
theorem readDecimal_of_readWhole {negative : Bool} {whole : List Char} {item : Item}
    (hwhole : readWhole cs = some (whole, rest)) (hfraction : readFraction rest = some ([], rest))
    (hexponent : readExponent rest = some (none, rest))
    (hitem : integer? (Decimal.Literal.mk negative whole [] none).integer = some item) :
    readDecimal negative cs = some (item, rest) := by
  have hinteger : (Decimal.Literal.mk negative whole [] none).isInteger = true := rfl
  simp only [readDecimal, hwhole, hfraction, hexponent, Option.bind_eq_bind, Option.bind_some,
    hinteger, if_true, hitem]

theorem readDecimal_toDigits (hn : n < Nat.pow 2 63) :
    readDecimal false (Nat.toDigits 10 n ++ '\n' :: rest) = some (.integer n, '\n' :: rest) := by
  have hvalue : (Decimal.Literal.mk false (Nat.toDigits 10 n) [] none).integer = n := by
    simp [Decimal.Literal.integer, Decimal.natOf, Nat.ofDigitChars_toDigits]
  refine readDecimal_of_readWhole (readWhole_toDigits n) rfl rfl ?_
  rw [hvalue, integer?_of_lt hn]

/-- The character behind a digit is a digit or ends the line. -/
theorem second_of_digits {d e : Char} (hds : ∀ x ∈ ds, x.isDigit = true)
    (h : ds ++ '\n' :: rest = d :: e :: cs) (hne : ds ≠ []) : e.isDigit = true ∨ e = '\n' := by
  cases ds with
  | nil => exact absurd rfl hne
  | cons x ds =>
    have hds' : ds ++ '\n' :: rest = e :: cs := (List.cons.inj h).2
    cases ds with
    | nil => exact .inr (List.cons.inj hds').1.symm
    | cons y ds =>
      have hy : y = e := (List.cons.inj hds').1
      exact .inl (hy ▸ hds y (by simp))

theorem takeSign_of_isDigit {d : Char} (hd : d.isDigit = true) :
    Decimal.takeSign (d :: cs) = (false, d :: cs) := by
  rw [Decimal.takeSign]
  · exact fun _ h => absurd (List.cons.inj h).1 (ne_of_isDigit hd (by decide))
  · exact fun _ h => absurd (List.cons.inj h).1 (ne_of_isDigit hd (by decide))

/-- **Integers.** Digits up to the end of a line are read as the number that they are. -/
theorem readNumber_toDigits (hn : n < Nat.pow 2 63) :
    readNumber (Nat.toDigits 10 n ++ '\n' :: rest) = some (.integer n, '\n' :: rest) := by
  have hsecond : ∀ {d e cs}, Nat.toDigits 10 n ++ '\n' :: rest = d :: e :: cs →
      e.isDigit = true ∨ e = '\n' := fun h =>
    second_of_digits (isDigit_toDigits n) h Nat.toDigits_ne_nil
  have hdecimal : readDecimal false (Nat.toDigits 10 n ++ '\n' :: rest) =
      some (.integer n, '\n' :: rest) := readDecimal_toDigits hn
  unfold readNumber
  split
  -- a mark of another base is no digit
  · rename_i h
    exact absurd (hsecond h) (by decide)
  · rename_i h
    exact absurd (hsecond h) (by decide)
  · rename_i h
    exact absurd (hsecond h) (by decide)
  · obtain ⟨d, ds, hds, hd⟩ := exists_toDigits n
    rw [hds, List.cons_append] at hdecimal ⊢
    rw [takeSign_of_isDigit hd]
    split
    · rename_i h
      exact absurd (List.cons.inj (Prod.mk.inj h).2).1 (ne_of_isDigit hd (by decide))
    · rename_i h
      exact absurd (List.cons.inj (Prod.mk.inj h).2).1 (ne_of_isDigit hd (by decide))
    · rename_i h
      cases h
      exact hdecimal

/-- A text begins with a quote. -/
theorem readText_eq_none (hdouble : c ≠ '"') (hsingle : c ≠ '\'') : readText (c :: cs) = none := by
  unfold readText
  split <;> simp_all

/-- **Values.** An integer is read as a value. -/
theorem readPlain_toDigits (hn : n < Nat.pow 2 63) :
    readPlain (Nat.toDigits 10 n ++ '\n' :: rest) = some (.integer n, '\n' :: rest) := by
  have hnumber : readNumber (Nat.toDigits 10 n ++ '\n' :: rest) = some (.integer n, '\n' :: rest) :=
    readNumber_toDigits hn
  have hmoment : readMoment (Nat.toDigits 10 n ++ '\n' :: rest) = none :=
    readMoment_eq_none (isDigit_toDigits n)
  obtain ⟨d, ds, hds, hd⟩ := exists_toDigits n
  rw [hds, List.cons_append] at hnumber hmoment ⊢
  have htext : readText (d :: (ds ++ '\n' :: rest)) = none :=
    readText_eq_none (ne_of_isDigit hd (by decide)) (ne_of_isDigit hd (by decide))
  unfold readPlain
  split
  · rename_i h
    exact absurd (List.cons.inj h).1 (ne_of_isDigit hd (by decide))
  · rename_i h
    exact absurd (List.cons.inj h).1 (ne_of_isDigit hd (by decide))
  · rw [htext, hmoment]
    exact hnumber

end Toml
end QueryFilter

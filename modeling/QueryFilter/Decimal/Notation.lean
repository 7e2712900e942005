/-
# Decimal notation

How a decimal is written and read as text. A `Decimal.Literal` is a decimal as
it was written: a sign, the digits before and after the point, and the power
of ten after the mark `e`. A `Decimal.Notation` is what one format decides for
itself when it writes a double: where positional notation ends, whether a
whole number keeps `.0`, and which way a tie goes.

Key definitions: `Decimal.Literal`, `Decimal.Literal.round?`,
`Decimal.Notation`, `Decimal.Notation.write`, `Binary64.ofText?`.
-/
import QueryFilter.Decimal.Shortest

namespace QueryFilter
namespace Decimal

/-! ### Writing -/

/-- The decisions of a format that writes doubles. -/
structure Notation where
  /-- Whether a number whose first digit counts `10 ^ e` is written without an exponent. -/
  positional : Int → Bool
  /-- Whether a whole number in positional notation ends in `.0`. -/
  keepsFraction : Bool
  tie : Tie

/-- The text of an integer. -/
def integer (n : Int) : List Char :=
  if n < 0 then '-' :: Nat.toDigits 10 n.natAbs else Nat.toDigits 10 n.natAbs

/-- Digits with the point after the first `point` of them, zeros filling the gap. -/
def withPoint (keepsFraction : Bool) (digits : List Char) (point : Int) : List Char :=
  if point ≤ 0 then '0' :: '.' :: (List.replicate (-point).toNat '0' ++ digits)
  else if (digits.length : Int) ≤ point then
    digits ++ List.replicate (point.toNat - digits.length) '0' ++
      (if keepsFraction then ['.', '0'] else [])
  else digits.take point.toNat ++ '.' :: digits.drop point.toNat

/-- One digit before the point, the rest behind it, and a signed power of ten. -/
def scientific (digits : List Char) (exponent : Int) : List Char :=
  let tail := match digits.drop 1 with
    | [] => []
    | rest => '.' :: rest
  let sign := if exponent < 0 then '-' else '+'
  digits.take 1 ++ tail ++ 'e' :: sign :: Nat.toDigits 10 exponent.natAbs

/-- The text of a finite double. -/
def Notation.write (n : Notation) (x : Binary64) : List Char :=
  let size :=
    if x.isZero then '0' :: (if n.keepsFraction then ['.', '0'] else [])
    else
      let d := x.shortest n.tie
      let digits := Nat.toDigits 10 d.coefficient
      if n.positional (d.point - 1) then withPoint n.keepsFraction digits d.point
      else scientific digits (d.point - 1)
  if x.isNegative then '-' :: size else size

/-! ### Reading -/

/-- A decimal as it was written. -/
structure Literal where
  negative : Bool
  /-- The digits before the point. -/
  whole : List Char
  /-- The digits after the point. -/
  fraction : List Char
  /-- The power of ten after the mark, if there is a mark. -/
  exponent : Option Int
  deriving DecidableEq

/-- The digits at the front of a text, and the rest. -/
def takeDigits : List Char → List Char × List Char
  | [] => ([], [])
  | c :: rest =>
    if c.isDigit then
      let p := takeDigits rest
      (c :: p.1, p.2)
    else ([], c :: rest)

/-- The number that a text of digits denotes. -/
def natOf (digits : List Char) : Nat := Nat.ofDigitChars 10 digits 0

namespace Literal

/-- Whether the decimal is written as an integer: no point and no power of ten. -/
def isInteger (l : Literal) : Bool := l.fraction.isEmpty && l.exponent.isNone

/-- The integer written, for a literal that is one. -/
def integer (l : Literal) : Int :=
  if l.negative then -(natOf l.whole : Int) else natOf l.whole

/-- The double nearest to the decimal; `none` if that is infinite. -/
def round? (l : Literal) : Option Binary64 :=
  Binary64.ofDecimal? l.negative (natOf (l.whole ++ l.fraction))
    (l.exponent.getD 0 - l.fraction.length)

end Literal

/-- A sign that may be missing, and the rest. -/
def takeSign : List Char → Bool × List Char
  | '-' :: rest => (true, rest)
  | '+' :: rest => (false, rest)
  | cs => (false, cs)

/-- A power of ten behind its mark: `e` or `E`, a sign that may be missing,
and at least one digit. -/
def takeExponent? : List Char → Option (Option Int × List Char)
  | [] => some (none, [])
  | c :: rest =>
    if c = 'e' ∨ c = 'E' then
      let (negative, rest) := takeSign rest
      match takeDigits rest with
      | ([], _) => none
      | (ds, rest) => some (some (if negative then -(natOf ds : Int) else natOf ds), rest)
    else some (none, c :: rest)

end Decimal

namespace Binary64

open Decimal

/-- A whole text read as a decimal: a sign, digits with a point among or beside
them, a power of ten. -/
def ofDecimalText? (cs : List Char) : Option Literal :=
  let (negative, rest) := takeSign cs
  let (whole, rest) := takeDigits rest
  let (fraction, rest) := match rest with
    | '.' :: rest => takeDigits rest
    | _ => ([], rest)
  if whole.isEmpty && fraction.isEmpty then none
  else match takeExponent? rest with
    | some (exponent, []) => some ⟨negative, whole, fraction, exponent⟩
    | _ => none

/-- The double that a text names: `NaN`, `inf` or `infinity` in any letter case
and with a sign, or a decimal. A decimal too large for a double is infinite. -/
def ofText? (s : String) : Option Binary64 :=
  let (negative, rest) := takeSign s.toList
  let word := String.ofList (rest.map Char.toLower)
  if word = "nan" then some nan
  else if word = "inf" ∨ word = "infinity" then some (infinity negative)
  else (ofDecimalText? s.toList).map fun l => l.round?.getD (infinity l.negative)

end Binary64
end QueryFilter

/-
# Numbers in TOML text

Integers in four bases and floats. Digits may have single underscores between
them. An integer has to fit 64 bits with a sign. A float is rounded to the
nearest double; one below every finite double is infinite, and one above all
of them is refused.

Key definitions: `Toml.readNumber`.
-/
import QueryFilter.Decimal.Notation
import QueryFilter.Text.Hex
import QueryFilter.Toml.Basic

namespace QueryFilter
namespace Toml

/-- Digits with single underscores between them, behind a digit. -/
def moreDigits (isDigit : Char → Bool) : List Char → Option (List Char × List Char)
  | [] => some ([], [])
  | ['_'] => none
  | '_' :: c :: rest =>
    if isDigit c then (moreDigits isDigit rest).map fun p => (c :: p.1, p.2) else none
  | c :: rest =>
    if isDigit c then (moreDigits isDigit rest).map fun p => (c :: p.1, p.2)
    else some ([], c :: rest)

/-- At least one digit, with single underscores between digits. -/
def readDigits (isDigit : Char → Bool) : List Char → Option (List Char × List Char)
  | [] => none
  | c :: rest =>
    if isDigit c then (moreDigits isDigit rest).map fun p => (c :: p.1, p.2) else none

/-- The value of hexadecimal, octal or binary digits. -/
def valueOf (base : Nat) (digits : List Char) : Nat :=
  digits.foldl (fun n c => n * base + (Text.hexDigit? c).getD 0) 0

/-- The item of an integer, which has to fit 64 bits with a sign. -/
def integer? (n : Int) : Option Item :=
  if -Int.pow 2 63 ≤ n ∧ n < Int.pow 2 63 then some (.integer n) else none

/-- An integer in a base other than ten, behind the mark of the base. -/
def readBased (base : Nat) (cs : List Char) : Option (Item × List Char) := do
  let isDigit := fun c => (Text.hexDigit? c).any fun d => d < base
  let (digits, rest) ← readDigits isDigit cs
  let item ← integer? (valueOf base digits)
  some (item, rest)

/-- The digits before the point: a zero alone, or digits that begin with another. -/
def readWhole : List Char → Option (List Char × List Char)
  | '0' :: rest => some (['0'], rest)
  | cs => readDigits Char.isDigit cs

/-- The point and the digits behind it, if there is a point. -/
def readFraction : List Char → Option (List Char × List Char)
  | '.' :: rest => readDigits Char.isDigit rest
  | cs => some ([], cs)

/-- The power of ten behind its mark, if there is a mark. -/
def readExponent : List Char → Option (Option Int × List Char)
  | [] => some (none, [])
  | c :: rest =>
    if c = 'e' ∨ c = 'E' then do
      let (negative, rest) := Decimal.takeSign rest
      let (digits, rest) ← readDigits Char.isDigit rest
      let n : Int := Decimal.natOf digits
      some (some (if negative then -n else n), rest)
    else some (none, c :: rest)

/-- The item of a float. -/
def float? (l : Decimal.Literal) : Option Item :=
  match l.round? with
  | some x => some (.float x)
  | none => if l.negative then some (.float (Binary64.infinity true)) else none

/-- A number in base ten behind its sign. -/
def readDecimal (negative : Bool) (cs : List Char) : Option (Item × List Char) := do
  let (whole, rest) ← readWhole cs
  let (fraction, rest) ← readFraction rest
  let (exponent, rest) ← readExponent rest
  let literal : Decimal.Literal := ⟨negative, whole, fraction, exponent⟩
  let item ← if literal.isInteger then integer? literal.integer else float? literal
  some (item, rest)

/-- A number of any kind. -/
def readNumber : List Char → Option (Item × List Char)
  | '0' :: 'x' :: rest => readBased 16 rest
  | '0' :: 'o' :: rest => readBased 8 rest
  | '0' :: 'b' :: rest => readBased 2 rest
  | cs =>
    match Decimal.takeSign cs with
    | (negative, 'i' :: 'n' :: 'f' :: rest) => some (.float (Binary64.infinity negative), rest)
    | (_, 'n' :: 'a' :: 'n' :: rest) => some (.float Binary64.nan, rest)
    | (negative, rest) => readDecimal negative rest

end Toml
end QueryFilter

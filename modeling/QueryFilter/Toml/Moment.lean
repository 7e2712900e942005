/-
# Dates and times

A moment is a date, a time of day, or a date and a time with a `T` or a space
between them, behind which an offset from universal time may stand. A minute
may have a leap second.

Key definitions: `Toml.Date`, `Toml.Clock`, `Toml.Moment`, `Toml.readMoment`.
-/
import QueryFilter.Decimal.Notation

namespace QueryFilter
namespace Toml

/-- A day of the calendar. -/
structure Date where
  year : Nat
  month : Nat
  day : Nat
  deriving DecidableEq, Repr

namespace Date

/-- Whether a year has a leap day. -/
def isLeap (year : Nat) : Bool := year % 4 = 0 && (year % 100 ≠ 0 || year % 400 = 0)

/-- The number of days of a month. -/
def daysIn (year month : Nat) : Nat :=
  if month = 2 then (if isLeap year then 29 else 28)
  else if month ∈ [4, 6, 9, 11] then 30
  else 31

/-- Whether the calendar has the day. -/
def isValid (d : Date) : Bool :=
  1 ≤ d.month && d.month ≤ 12 && 1 ≤ d.day && d.day ≤ daysIn d.year d.month

end Date

/-- A time of day. -/
structure Clock where
  hour : Nat
  minute : Nat
  second : Nat
  /-- The digits behind the point of the second. -/
  fraction : List Char
  deriving DecidableEq, Repr

/-- Whether there is such a time. -/
def Clock.isValid (c : Clock) : Bool := c.hour < 24 && c.minute < 60 && c.second ≤ 60

/-- A date, a time or both. -/
structure Moment where
  date : Option Date
  clock : Option Clock
  /-- The minutes that the time is ahead of universal time. -/
  offset : Option Int
  deriving DecidableEq, Repr

/-- A date at the front of a text, and what follows it. -/
def readDate : List Char → Option (Date × List Char)
  | a :: b :: c :: d :: '-' :: e :: f :: '-' :: g :: h :: rest =>
    let date : Date := ⟨Decimal.natOf [a, b, c, d], Decimal.natOf [e, f], Decimal.natOf [g, h]⟩
    if [a, b, c, d, e, f, g, h].all Char.isDigit ∧ date.isValid then some (date, rest) else none
  | _ => none

/-- The point and the digits behind it, if a digit follows the point. -/
def takeFraction : List Char → List Char × List Char
  | '.' :: rest =>
    match Decimal.takeDigits rest with
    | ([], _) => ([], '.' :: rest)
    | (digits, rest) => (digits, rest)
  | cs => ([], cs)

/-- A time of day at the front of a text, and what follows it. -/
def readClock : List Char → Option (Clock × List Char)
  | a :: b :: ':' :: c :: d :: ':' :: e :: f :: rest =>
    let (fraction, rest) := takeFraction rest
    let clock : Clock :=
      ⟨Decimal.natOf [a, b], Decimal.natOf [c, d], Decimal.natOf [e, f], fraction⟩
    if [a, b, c, d, e, f].all Char.isDigit ∧ clock.isValid then some (clock, rest) else none
  | _ => none

/-- The minutes of an offset behind its sign, and what follows it. -/
def readOffset : List Char → Option (Nat × List Char)
  | a :: b :: ':' :: c :: d :: rest =>
    let hours := Decimal.natOf [a, b]
    let minutes := Decimal.natOf [c, d]
    if [a, b, c, d].all Char.isDigit ∧ hours < 24 ∧ minutes < 60 then
      some (60 * hours + minutes, rest)
    else none
  | _ => none

/-- An offset that may be missing, and what follows it. -/
def takeOffset : List Char → Option Int × List Char
  | 'Z' :: rest => (some 0, rest)
  | 'z' :: rest => (some 0, rest)
  | '+' :: rest =>
    match readOffset rest with
    | some (minutes, rest) => (some minutes, rest)
    | none => (none, '+' :: rest)
  | '-' :: rest =>
    match readOffset rest with
    | some (minutes, rest) => (some (-(minutes : Int)), rest)
    | none => (none, '-' :: rest)
  | cs => (none, cs)

/-- The text behind the mark between a date and a time. -/
def behindMark? : List Char → Option (List Char)
  | c :: rest => if c = 'T' ∨ c = 't' ∨ c = ' ' then some rest else none
  | [] => none

/-- A moment at the front of a text, and what follows it. -/
def readMoment (cs : List Char) : Option (Moment × List Char) :=
  match readDate cs with
  | some (date, rest) =>
    match (behindMark? rest).bind readClock with
    | some (clock, rest) =>
      let (offset, rest) := takeOffset rest
      some (⟨some date, some clock, offset⟩, rest)
    | none => some (⟨some date, none, none⟩, rest)
  | none => (readClock cs).map fun p => (⟨none, some p.1, none⟩, p.2)

end Toml
end QueryFilter

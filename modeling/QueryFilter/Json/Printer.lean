/-
# Writing JSON text

The compact form: no blanks, members in their order, `"` and `\` and the
controls below U+0020 escaped and every other character as it is. A double is
positional from `1e-5` up to but not including `1e16` and always shows a
point there; outside it has a power of ten with a sign.

Key definitions: `Json.floatNotation`, `Json.print`.
-/
import QueryFilter.Json.Basic

namespace QueryFilter
namespace Json

/-- How JSON text shows doubles. -/
def floatNotation : Decimal.Notation where
  positional := fun exponent => -5 ≤ exponent && exponent < 16
  keepsFraction := true
  tie := .even

/-- The text of a number. -/
def Number.write : Number → List Char
  | .int value => Decimal.integer value.toInt
  | .uint value _ => Decimal.integer value.toNat
  | .float value _ => floatNotation.write value

/-- A character inside quotes. -/
def escapeChar (c : Char) : List Char :=
  match c with
  | '"' => ['\\', '"']
  | '\\' => ['\\', '\\']
  | '\x08' => ['\\', 'b']
  | '\x0c' => ['\\', 'f']
  | '\n' => ['\\', 'n']
  | '\r' => ['\\', 'r']
  | '\t' => ['\\', 't']
  | c =>
    if c.toNat < 0x20 then
      ['\\', 'u', '0', '0', (c.toNat / 16).digitChar, (c.toNat % 16).digitChar]
    else [c]

/-- A string in quotes. -/
def quote (s : String) : List Char :=
  '"' :: (s.toList.flatMap escapeChar ++ ['"'])

mutual

/-- The text of a value. -/
def write : Json → List Char
  | .null => ['n', 'u', 'l', 'l']
  | .bool true => ['t', 'r', 'u', 'e']
  | .bool false => ['f', 'a', 'l', 's', 'e']
  | .number n => n.write
  | .string s => quote s
  | .array [] => ['[', ']']
  | .array (item :: rest) => '[' :: (write item ++ writeItems rest)
  | .object [] => ['\x7b', '\x7d']
  | .object ((key, item) :: rest) => '\x7b' :: (quote key ++ ':' :: (write item ++ writeMembers rest))

/-- The items behind the first, and the closing bracket. -/
def writeItems : List Json → List Char
  | [] => [']']
  | item :: rest => ',' :: (write item ++ writeItems rest)

/-- The members behind the first, and the closing brace. -/
def writeMembers : List (String × Json) → List Char
  | [] => ['\x7d']
  | (key, item) :: rest => ',' :: (quote key ++ ':' :: (write item ++ writeMembers rest))

end

/-- The compact text of a value. -/
def print (j : Json) : String := String.ofList (write j)

end Json
end QueryFilter

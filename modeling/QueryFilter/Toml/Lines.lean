/-
# Lines of TOML text

What stands between the keys and values of a document: spaces and tabs,
comments that run to the end of their line, and the ends of lines, which are
line feeds that a carriage return may precede.

Key definitions: `Toml.skipSpaces`, `Toml.newline?`, `Toml.restOfLine?`,
`Toml.skipLines`.
-/

namespace QueryFilter
namespace Toml

/-- The text behind spaces and tabs. -/
def skipSpaces : List Char → List Char
  | [] => []
  | c :: rest => if c = ' ' ∨ c = '\t' then skipSpaces rest else c :: rest

/-- Whether a character may stand in a comment or in quotes: no control
characters but the tab. -/
def isPlain (c : Char) : Bool := c = '\t' || (0x20 ≤ c.toNat && c.toNat ≠ 0x7F)

/-- The text behind a comment, if one begins here. -/
def skipComment : List Char → List Char
  | '#' :: rest => rest.dropWhile isPlain
  | cs => cs

/-- The text behind a line feed, or a carriage return and a line feed. -/
def newline? : List Char → Option (List Char)
  | '\n' :: rest => some rest
  | '\r' :: '\n' :: rest => some rest
  | _ => none

/-- The text behind the end of a line; the end of the text is one as well. -/
def lineEnd? : List Char → Option (List Char)
  | [] => some []
  | cs => newline? cs

/-- The text behind all that may follow a statement on its line. -/
def restOfLine? (cs : List Char) : Option (List Char) := lineEnd? (skipComment (skipSpaces cs))

/-- The text behind blanks, comments and line ends, at most `fuel` of these. -/
def skipLines : Nat → List Char → List Char
  | 0, cs => cs
  | fuel + 1, cs =>
    let cs := skipComment (skipSpaces cs)
    match newline? cs with
    | some rest => skipLines fuel rest
    | none => cs

end Toml
end QueryFilter

/-
# Reading TOML text

A document is read line by line. A line is blank, a comment, a header in one
or two pairs of brackets, or a key, an equals sign and a value. Values are
texts in quotes, numbers, moments, truth values, arrays, which may run over
several lines, and tables in braces, which may not.

A key has at most so many names, and arrays and tables in braces nest at most
so many levels deep; a document beyond either bound is refused as a whole.

Key definitions: `Toml.maxNames`, `Toml.maxLevels`, `Toml.readValue`,
`Toml.readStatements`, `Toml.parse?`.
-/
import QueryFilter.Toml.Number
import QueryFilter.Toml.Quoted

namespace QueryFilter
namespace Toml

/-! ### Keys -/

/-- The names that a key may have. -/
def maxNames : Nat := 79

/-- Whether a character may stand in a name without quotes. -/
def isBare (c : Char) : Bool := c.isAlphanum || c = '_' || c = '-'

/-- One name of a key, and what follows it. -/
def readName : List Char → Option (String × List Char)
  | '"' :: rest => (readBasic rest).map fun p => (String.ofList p.1, p.2)
  | '\'' :: rest => (readLiteral rest).map fun p => (String.ofList p.1, p.2)
  | cs =>
    match cs.takeWhile isBare with
    | [] => none
    | name => some (String.ofList name, cs.dropWhile isBare)

/-- A key of at most so many names, and what follows it and the blanks behind it. -/
def readNames : Nat → List Char → Option (Key × List Char)
  | 0, _ => none
  | names + 1, cs => do
    let (name, rest) ← readName (skipSpaces cs)
    match skipSpaces rest with
    | '.' :: rest => do
      let (more, rest) ← readNames names rest
      some (name :: more, rest)
    | rest => some ([name], rest)

/-- A key, and what follows it and the blanks behind it. -/
def readKey (cs : List Char) : Option (Key × List Char) := readNames maxNames cs

/-! ### Values -/

/-- The levels of nesting that a value may have. -/
def maxLevels : Nat := 79

/-- A value that has no values inside, and what follows it. -/
def readPlain (cs : List Char) : Option (Item × List Char) :=
  match cs with
  | 't' :: 'r' :: 'u' :: 'e' :: rest => some (.boolean true, rest)
  | 'f' :: 'a' :: 'l' :: 's' :: 'e' :: rest => some (.boolean false, rest)
  | cs =>
    match readText cs with
    | some (text, rest) => some (.string (String.ofList text), rest)
    | none =>
      match readMoment cs with
      | some (moment, rest) => some (.moment moment, rest)
      | none => readNumber cs

mutual

/-- A value of at most so many levels at the front of the text, and what
follows it, read in `fuel` steps. -/
def readValue : Nat → Nat → List Char → Option (Item × List Char)
  | 0, _, _ => none
  | fuel + 1, levels, cs =>
    match cs, levels with
    | '[' :: _, 0 => none
    | '\x7b' :: _, 0 => none
    | '[' :: rest, levels + 1 => (readItems fuel levels rest).map fun p => (.array p.1, p.2)
    | '\x7b' :: rest, levels + 1 =>
      match skipSpaces rest with
      | '\x7d' :: rest => some (.table .inline [], rest)
      | rest => do
        let (pairs, rest) ← readPairs fuel levels rest
        let entries ← Table.assignAll pairs []
        some (.table .inline entries, rest)
    | cs, _ => readPlain cs

/-- The items of an array up to its closing bracket. -/
def readItems : Nat → Nat → List Char → Option (List Item × List Char)
  | 0, _, _ => none
  | fuel + 1, levels, cs =>
    match skipLines cs.length cs with
    | ']' :: rest => some ([], rest)
    | cs => do
      let (item, rest) ← readValue fuel levels cs
      match skipLines rest.length rest with
      | ',' :: rest => do
        let (items, rest) ← readItems fuel levels rest
        some (item :: items, rest)
      | ']' :: rest => some ([item], rest)
      | _ => none

/-- The keys and values of a table in braces up to its closing brace. -/
def readPairs : Nat → Nat → List Char → Option (List (Key × Item) × List Char)
  | 0, _, _ => none
  | fuel + 1, levels, cs => do
    let (key, rest) ← readKey cs
    match rest with
    | '=' :: rest => do
      let (item, rest) ← readValue fuel levels (skipSpaces rest)
      match skipSpaces rest with
      | ',' :: rest => do
        let (pairs, rest) ← readPairs fuel levels rest
        some ((key, item) :: pairs, rest)
      | '\x7d' :: rest => some ([(key, item)], rest)
      | _ => none
    | _ => none

end

/-! ### Documents -/

/-- The statement at the front of a line, and what follows it. -/
def readStatement : List Char → Option (Statement × List Char)
  | '[' :: '[' :: rest => do
    let (key, rest) ← readKey rest
    match rest with
    | ']' :: ']' :: rest => some (.element key, rest)
    | _ => none
  | '[' :: rest => do
    let (key, rest) ← readKey rest
    match rest with
    | ']' :: rest => some (.header key, rest)
    | _ => none
  | cs => do
    let (key, rest) ← readKey cs
    match rest with
    | '=' :: rest => do
      let (item, rest) ← readValue (2 * rest.length + 2) maxLevels (skipSpaces rest)
      some (.assign key item, rest)
    | _ => none

/-- The statements of a text, at most `fuel` of them. -/
def readStatements : Nat → List Char → Option (List Statement)
  | 0, _ => none
  | fuel + 1, cs =>
    match skipLines cs.length cs with
    | [] => some []
    | cs => do
      let (statement, rest) ← readStatement cs
      let rest ← restOfLine? rest
      let statements ← readStatements fuel rest
      some (statement :: statements)

/-- The table of a TOML text. A mark of the byte order at its front is passed over. -/
def parse? (text : String) : Option Table :=
  let cs := match text.toList with
    | '\uFEFF' :: rest => rest
    | cs => cs
  (readStatements (cs.length + 1) cs).bind Table.ofStatements?

end Toml
end QueryFilter

/-
# Reading JSON text

The grammar of JSON: blanks are space, tab, line feed and carriage return;
strings hold no control character below U+0020; numbers have no leading zero
and a digit on each side of the point; nothing but blanks follows the value.

Reading a string is in two steps. The text is split into plain characters and
escaped UTF-16 units, and then the units are paired.

Key definitions: `Json.Document.parse?`, `Json.parse?`.
-/
import QueryFilter.Json.Document
import QueryFilter.Text.Hex

namespace QueryFilter
namespace Json

/-! ### Strings -/

/-- One position of a string: a character, or a UTF-16 unit given by `\u`. -/
inductive StringUnit where
  | char (c : Char)
  | escape (unit : Nat)

/-- The character that stands for itself or for a control behind a backslash. -/
def shortEscape? : Char → Option Char
  | '"' => some '"'
  | '\\' => some '\\'
  | '/' => some '/'
  | 'b' => some '\x08'
  | 'f' => some '\x0c'
  | 'n' => some '\n'
  | 'r' => some '\r'
  | 't' => some '\t'
  | _ => none

/-- The units up to the closing quote, and what follows it. -/
def readUnits : List Char → Option (List StringUnit × List Char)
  | [] => none
  | '"' :: rest => some ([], rest)
  | '\\' :: 'u' :: a :: b :: c :: d :: rest => do
    let unit ← Text.hexUnit? a b c d
    let (units, rest) ← readUnits rest
    some (.escape unit :: units, rest)
  | '\\' :: c :: rest => do
    let e ← shortEscape? c
    let (units, rest) ← readUnits rest
    some (.char e :: units, rest)
  | c :: rest =>
    if c.toNat < 0x20 then none
    else do
      let (units, rest) ← readUnits rest
      some (.char c :: units, rest)

/-- Whether a unit is the first half of a surrogate pair. -/
def isLeading (unit : Nat) : Bool := 0xD800 ≤ unit && unit < 0xDC00

/-- Whether a unit is the second half of a surrogate pair. -/
def isTrailing (unit : Nat) : Bool := 0xDC00 ≤ unit && unit < 0xE000

/-- The characters of a list of units; none if half a pair stands alone. -/
def pairUnits : List StringUnit → Option (List Char)
  | [] => some []
  | .char c :: rest => (pairUnits rest).map (c :: ·)
  | .escape a :: .escape b :: rest =>
    if isLeading a then
      if isTrailing b then
        (pairUnits rest).map (Char.ofNat (0x10000 + (a - 0xD800) * 0x400 + (b - 0xDC00)) :: ·)
      else none
    else if isTrailing a then none
    else (pairUnits (.escape b :: rest)).map (Char.ofNat a :: ·)
  | .escape a :: rest =>
    if isLeading a || isTrailing a then none
    else (pairUnits rest).map (Char.ofNat a :: ·)

/-- The string behind an opening quote, and what follows its closing one. -/
def readString (cs : List Char) : Option (Option String × List Char) := do
  let (units, rest) ← readUnits cs
  some ((pairUnits units).map String.ofList, rest)

/-! ### Numbers -/

/-- The digits before the point: one zero, or digits that begin with another. -/
def readWhole (cs : List Char) : Option (List Char × List Char) :=
  match Decimal.takeDigits cs with
  | ([], _) => none
  | (['0'], rest) => some (['0'], rest)
  | ('0' :: _, _) => none
  | (digits, rest) => some (digits, rest)

/-- The point and the digits behind it, if there is a point. -/
def readFraction : List Char → Option (List Char × List Char)
  | '.' :: rest =>
    match Decimal.takeDigits rest with
    | ([], _) => none
    | (digits, rest) => some (digits, rest)
  | cs => some ([], cs)

/-- A number literal, and what follows it. -/
def readNumber (cs : List Char) : Option (Decimal.Literal × List Char) := do
  let (negative, cs) := match cs with
    | '-' :: rest => (true, rest)
    | cs => (false, cs)
  let (whole, rest) ← readWhole cs
  let (fraction, rest) ← readFraction rest
  let (exponent, rest) ← Decimal.takeExponent? rest
  some (⟨negative, whole, fraction, exponent⟩, rest)

/-! ### Documents -/

/-- The text behind the blanks of JSON. -/
def skipBlanks : List Char → List Char
  | [] => []
  | c :: rest =>
    if c = ' ' ∨ c = '\t' ∨ c = '\n' ∨ c = '\r' then skipBlanks rest else c :: rest

mutual

/-- A document at the front of the text, and what follows it. -/
def readDocument : Nat → List Char → Option (Document × List Char)
  | 0, _ => none
  | fuel + 1, cs =>
    match skipBlanks cs with
    | 'n' :: 'u' :: 'l' :: 'l' :: rest => some (.null, rest)
    | 't' :: 'r' :: 'u' :: 'e' :: rest => some (.bool true, rest)
    | 'f' :: 'a' :: 'l' :: 's' :: 'e' :: rest => some (.bool false, rest)
    | '"' :: rest => (readString rest).map fun p => (.string p.1, p.2)
    | '[' :: rest =>
      match skipBlanks rest with
      | ']' :: rest => some (.array [], rest)
      | rest => (readItems fuel rest).map fun p => (.array p.1, p.2)
    | '\x7b' :: rest =>
      match skipBlanks rest with
      | '\x7d' :: rest => some (.object [], rest)
      | rest => (readMembers fuel rest).map fun p => (.object p.1, p.2)
    | cs => (readNumber cs).map fun p => (.number (Number.ofLiteral? p.1), p.2)

/-- The items of an array up to its closing bracket. -/
def readItems : Nat → List Char → Option (List Document × List Char)
  | 0, _ => none
  | fuel + 1, cs => do
    let (item, rest) ← readDocument fuel cs
    match skipBlanks rest with
    | ']' :: rest => some ([item], rest)
    | ',' :: rest => do
      let (items, rest) ← readItems fuel rest
      some (item :: items, rest)
    | _ => none

/-- The members of an object up to its closing brace. -/
def readMembers : Nat → List Char → Option (List (Option String × Document) × List Char)
  | 0, _ => none
  | fuel + 1, cs =>
    match skipBlanks cs with
    | '"' :: rest => do
      let (key, rest) ← readString rest
      match skipBlanks rest with
      | ':' :: rest => do
        let (item, rest) ← readDocument fuel rest
        match skipBlanks rest with
        | '\x7d' :: rest => some ([(key, item)], rest)
        | ',' :: rest => do
          let (members, rest) ← readMembers fuel rest
          some ((key, item) :: members, rest)
        | _ => none
      | _ => none
    | _ => none

end

/-- The document that a whole text is. Every two steps of reading pass over at
least one character, which bounds their number. -/
def Document.parse? (text : String) : Option Document :=
  let cs := text.toList
  match readDocument (2 * cs.length + 2) cs with
  | some (document, rest) => if (skipBlanks rest).isEmpty then some document else none
  | none => none

/-- The value of a whole text that nests at most `levels` deep. -/
def parse? (text : String) (levels : Nat) : Option Json :=
  (Document.parse? text).bind (Document.value? levels)

end Json
end QueryFilter

/-
# Texts in quotes

TOML has texts in double quotes, in which a backslash begins an escape, and in
single quotes, in which nothing does. In three quotes of either kind a text
may run over several lines: a newline right behind the opening quotes does not
count, every other one counts as a line feed, and one or two quotes that are
not followed by a third are part of the text. A backslash at the end of a line
of such a text in double quotes takes away all blanks up to the next character.

Key definitions: `Toml.readText`, `Toml.readBasic`, `Toml.readLongBasic`,
`Toml.readLiteral`, `Toml.readLongLiteral`.
-/
import QueryFilter.Text.Hex
import QueryFilter.Toml.Lines

namespace QueryFilter
namespace Toml

/-! ### Escapes -/

/-- The character that stands behind a backslash for itself or for a control. -/
def shortEscape? : Char → Option Char
  | '"' => some '"'
  | '\\' => some '\\'
  | 'b' => some '\x08'
  | 'f' => some '\x0c'
  | 'n' => some '\n'
  | 'r' => some '\r'
  | 't' => some '\t'
  | _ => none

/-- The character of a code point, which must not be half of a surrogate pair. -/
def scalar? (code : Nat) : Option Char :=
  if code < 0xD800 ∨ (0xE000 ≤ code ∧ code < 0x110000) then some (Char.ofNat code) else none

/-- The character of four hexadecimal digits. -/
def unitChar? (a b c d : Char) : Option Char := (Text.hexUnit? a b c d).bind scalar?

/-- The character of eight hexadecimal digits. -/
def codeChar? (a b c d e f g h : Char) : Option Char := do
  let high ← Text.hexUnit? a b c d
  let low ← Text.hexUnit? e f g h
  scalar? (high * 0x10000 + low)

/-! ### Texts on one line -/

/-- Characters read and what follows them, with one more character in front. -/
def withChar (char : Option Char) (read : Option (List Char × List Char)) :
    Option (List Char × List Char) := do
  let c ← char
  let (cs, rest) ← read
  some (c :: cs, rest)

/-- The characters up to the closing double quote, and what follows it. -/
def readBasic : List Char → Option (List Char × List Char)
  | [] => none
  | '"' :: rest => some ([], rest)
  | '\\' :: 'u' :: a :: b :: c :: d :: rest => withChar (unitChar? a b c d) (readBasic rest)
  | '\\' :: 'U' :: a :: b :: c :: d :: e :: f :: g :: h :: rest =>
    withChar (codeChar? a b c d e f g h) (readBasic rest)
  | '\\' :: c :: rest => withChar (shortEscape? c) (readBasic rest)
  | c :: rest => if isPlain c then withChar (some c) (readBasic rest) else none

/-- The characters up to the closing single quote, and what follows it. -/
def readLiteral : List Char → Option (List Char × List Char)
  | [] => none
  | '\'' :: rest => some ([], rest)
  | c :: rest => if isPlain c then withChar (some c) (readLiteral rest) else none

/-! ### Texts on several lines -/

/-- The characters up to three closing double quotes, and what follows these.
While `folding`, blanks are passed over. -/
def readLongBasic : Bool → List Char → Option (List Char × List Char)
  | _, [] => none
  | _, '"' :: '"' :: '"' :: '"' :: '"' :: rest => some (['"', '"'], rest)
  | _, '"' :: '"' :: '"' :: '"' :: rest => some (['"'], rest)
  | _, '"' :: '"' :: '"' :: rest => some ([], rest)
  | _, '\\' :: 'u' :: a :: b :: c :: d :: rest =>
    withChar (unitChar? a b c d) (readLongBasic false rest)
  | _, '\\' :: 'U' :: a :: b :: c :: d :: e :: f :: g :: h :: rest =>
    withChar (codeChar? a b c d e f g h) (readLongBasic false rest)
  | _, '\\' :: c :: rest =>
    if (newline? (skipSpaces (c :: rest))).isSome then readLongBasic true (c :: rest)
    else withChar (shortEscape? c) (readLongBasic false rest)
  | true, '\r' :: '\n' :: rest => readLongBasic true rest
  | false, '\r' :: '\n' :: rest => withChar (some '\n') (readLongBasic false rest)
  | folding, c :: rest =>
    if folding ∧ (c = ' ' ∨ c = '\t' ∨ c = '\n') then readLongBasic true rest
    else if c = '\n' ∨ isPlain c then withChar (some c) (readLongBasic false rest)
    else none

/-- The characters up to three closing single quotes, and what follows these. -/
def readLongLiteral : List Char → Option (List Char × List Char)
  | [] => none
  | '\'' :: '\'' :: '\'' :: '\'' :: '\'' :: rest => some (['\'', '\''], rest)
  | '\'' :: '\'' :: '\'' :: '\'' :: rest => some (['\''], rest)
  | '\'' :: '\'' :: '\'' :: rest => some ([], rest)
  | '\r' :: '\n' :: rest => withChar (some '\n') (readLongLiteral rest)
  | c :: rest =>
    if c = '\n' ∨ isPlain c then withChar (some c) (readLongLiteral rest) else none

/-! ### Texts of all kinds -/

/-- A text with a newline at its front taken away. -/
def skipNewline (cs : List Char) : List Char := (newline? cs).getD cs

/-- The characters of a text that begins with its opening quotes, and what
follows its closing ones. -/
def readText : List Char → Option (List Char × List Char)
  | '"' :: '"' :: '"' :: rest => readLongBasic false (skipNewline rest)
  | '"' :: rest => readBasic rest
  | '\'' :: '\'' :: '\'' :: rest => readLongLiteral (skipNewline rest)
  | '\'' :: rest => readLiteral rest
  | _ => none

end Toml
end QueryFilter

/-
# JSON as written

A `Json.Document` is what a JSON text says before anyone has asked what it
means: objects keep every member, repeated ones included, and a number out of
range or a string that names half of a surrogate pair is there but has no
value. The grammar decides whether a text is a document; `Document.value?`
decides whether the document has a value, which takes a value in each of its
parts and no more than so many levels of nesting.

Two readers need the difference. A structure read from a document minds a
repeated field and passes over fields that it does not know, whatever is in
them; a value keeps the last of the repeated members.

Key definitions: `Json.Number.ofLiteral?`, `Json.Document`,
`Json.Document.value?`.
-/
import QueryFilter.Json.Basic

namespace QueryFilter
namespace Json

/-! ### Numbers -/

/-- The double nearest to the literal, if it is finite. -/
def Number.roundLiteral? (l : Decimal.Literal) : Option Number :=
  l.round?.bind Number.ofFloat?

/-- The number of a literal. An integer literal is an integer if 64 bits hold
it, and `-0` is not one; all else is rounded to a double. -/
def Number.ofLiteral? (l : Decimal.Literal) : Option Number :=
  if l.isInteger then
    let n := l.integer
    if l.negative ∧ n = 0 then roundLiteral? l
    else if -Int.pow 2 63 ≤ n ∧ n < Int.pow 2 63 then some (.int (Int64.ofInt n))
    else if 0 ≤ n ∧ n < Int.pow 2 64 then some (Number.ofUInt64 (UInt64.ofNat n.toNat))
    else roundLiteral? l
  else roundLiteral? l

/-! ### Documents -/

/-- A JSON text, taken apart but not yet judged. -/
inductive Document where
  | null
  | bool (value : Bool)
  /-- The number is missing where the decimal is beyond every finite double. -/
  | number (value : Option Number)
  /-- The text is missing where an escape names half of a surrogate pair. -/
  | string (text : Option String)
  | array (items : List Document)
  | object (members : List (Option String × Document))

namespace Document

/-- The levels of nesting that a value may have. -/
def maxLevels : Nat := 127

mutual

/-- The value of a document, if it has one and nests at most `levels` deep. -/
def value? (levels : Nat) : Document → Option Json
  | .null => some .null
  | .bool b => some (.bool b)
  | .number n => n.map .number
  | .string text => text.map .string
  | .array items =>
    if levels = 0 then none else (itemValues? (levels - 1) items).map .array
  | .object members =>
    if levels = 0 then none
    else (memberValues? (levels - 1) members).map fun ms => .object (ofMembers ms)

def itemValues? (levels : Nat) : List Document → Option (List Json)
  | [] => some []
  | item :: rest => do
    let v ← value? levels item
    let vs ← itemValues? levels rest
    some (v :: vs)

def memberValues? (levels : Nat) : List (Option String × Document) → Option (List (String × Json))
  | [] => some []
  | (key, item) :: rest => do
    let k ← key
    let v ← value? levels item
    let ms ← memberValues? levels rest
    some ((k, v) :: ms)

end

end Document
end Json
end QueryFilter

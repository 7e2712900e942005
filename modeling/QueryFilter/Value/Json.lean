/-
# Values as JSON

Two readers of a value from JSON. `Value.ofJson?` goes by what the JSON is;
`Value.firstKind?` tries the kinds of value in their order and takes the first
that accepts. Neither reads an object. A value is written by `Value.toJson`;
a double without a number, which JSON cannot hold, is written as `null`.

Key definitions: `Value.ofJson?`, `Value.firstKind?`, `Value.toJson`,
`Value.Portable`.
-/
import QueryFilter.Value.Basic
import QueryFilter.Json.Basic

namespace QueryFilter
namespace Value

/-- The value of a JSON number. -/
def ofNumber : Json.Number → Value
  | .int i => .int i
  | .uint u _ => .uint u
  | .float x _ => .float x

mutual

/-- The value that a JSON value is, unless it is or has an object. -/
def ofJson? : Json → Option Value
  | .null => some .null
  | .bool b => some (.bool b)
  | .number n => some (ofNumber n)
  | .string s => some (.string s)
  | .array items => (ofItems? items).map .array
  | .object _ => none

def ofItems? : List Json → Option (List Value)
  | [] => some []
  | item :: rest => do
    let v ← ofJson? item
    let vs ← ofItems? rest
    some (v :: vs)

end

/-! ### By the first kind that accepts -/

def nullOf? : Json → Option Value
  | .null => some .null
  | _ => none

def boolOf? : Json → Option Value
  | .bool b => some (.bool b)
  | _ => none

/-- Integers within 64 bits with a sign. -/
def intOf? : Json → Option Value
  | .number (.int i) => some (.int i)
  | _ => none

/-- Integers within 64 bits without a sign. -/
def uintOf? : Json → Option Value
  | .number (.int i) => if 0 ≤ i.toInt then some (.uint (UInt64.ofNat i.toInt.toNat)) else none
  | .number (.uint u _) => some (.uint u)
  | _ => none

/-- Every number, an integer by the double nearest to it. -/
def floatOf? : Json → Option Value
  | .number (.int i) => (Binary64.round? (i.toInt < 0) i.toInt.natAbs 1).map .float
  | .number (.uint u _) => (Binary64.round? false u.toNat 1).map .float
  | .number (.float x _) => some (.float x)
  | _ => none

def stringOf? : Json → Option Value
  | .string s => some (.string s)
  | _ => none

/-- The first kind without items that accepts. -/
def firstPlainKind? (j : Json) : Option Value :=
  [nullOf?, boolOf?, intOf?, uintOf?, floatOf?, stringOf?].findSome? fun accept => accept j

mutual

/-- The value by the first kind that accepts, sequences last. -/
def firstKind? : Json → Option Value
  | .array items => (firstPlainKind? (.array items)).orElse fun _ => (firstKinds? items).map .array
  | j => firstPlainKind? j

def firstKinds? : List Json → Option (List Value)
  | [] => some []
  | item :: rest => do
    let v ← firstKind? item
    let vs ← firstKinds? rest
    some (v :: vs)

end

/-! ### Writing -/

/-- The JSON of a double. -/
def jsonOfFloat (x : Binary64) : Json :=
  match Json.Number.ofFloat? x with
  | some n => .number n
  | none => .null

mutual

/-- The JSON of a value. -/
def toJson : Value → Json
  | .null => .null
  | .bool b => .bool b
  | .int i => .number (.int i)
  | .uint u => .number (Json.Number.ofUInt64 u)
  | .float x => jsonOfFloat x
  | .string s => .string s
  | .array items => .array (itemsToJson items)

def itemsToJson : List Value → List Json
  | [] => []
  | item :: rest => toJson item :: itemsToJson rest

end

mutual

/-- Whether JSON can hold the value as it is: doubles are finite, and unsigned
integers are too large for a sign. -/
def Portable : Value → Prop
  | .uint u => Nat.pow 2 63 ≤ u.toNat
  | .float x => x.isFinite = true
  | .array items => AllPortable items
  | _ => True

def AllPortable : List Value → Prop
  | [] => True
  | item :: rest => Portable item ∧ AllPortable rest

end

end Value
end QueryFilter

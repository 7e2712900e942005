/-
# Values

What an operator compares a column with. A value keeps the kind it was given
in: the integer `20`, the double `20.0` and the text `"20"` are three values,
and no two kinds are ever equal. Two doubles are compared as numbers, so a
value with a NaN in it differs from itself.

The display of a value is the text that paths and messages use. It does not
tell kinds apart.

Key definitions: `Value`, `Value.same`, `Value.display`, `Value.hasNaN`.
-/
import QueryFilter.Decimal.Notation

namespace QueryFilter

/-- A value given to an operator. -/
inductive Value where
  | null
  | bool (value : Bool)
  | int (value : Int64)
  | uint (value : UInt64)
  | float (value : Binary64)
  | string (value : String)
  | array (items : List Value)
  deriving Inhabited

namespace Value

def isNull : Value → Bool
  | .null => true
  | _ => false

def isArray : Value → Bool
  | .array _ => true
  | _ => false

/-- The integer that the value is, if it is one with a sign. -/
def int? : Value → Option Int64
  | .int i => some i
  | _ => none

/-- The text that the value is, if it is one. -/
def string? : Value → Option String
  | .string s => some s
  | _ => none

/-- The items of a sequence. -/
def items? : Value → Option (List Value)
  | .array items => some items
  | _ => none

/-- The value of an unsigned integer: one with a sign where that fits. -/
def ofUInt64 (u : UInt64) : Value :=
  if u.toNat < Nat.pow 2 63 then .int (Int64.ofNat u.toNat) else .uint u

/-! ### Equality -/

mutual

/-- Whether two values are of one kind and equal. -/
def same : Value → Value → Bool
  | .null, .null => true
  | .bool a, .bool b => a == b
  | .int a, .int b => a == b
  | .uint a, .uint b => a == b
  | .float a, .float b => a.ieeeEq b
  | .string a, .string b => a == b
  | .array as, .array bs => sameItems as bs
  | _, _ => false

/-- Whether two sequences are equal item by item. -/
def sameItems : List Value → List Value → Bool
  | [], [] => true
  | a :: as, b :: bs => same a b && sameItems as bs
  | _, _ => false

end

instance : BEq Value := ⟨same⟩

mutual

/-- Whether the value is a NaN or a sequence with one inside. -/
def hasNaN : Value → Bool
  | .float x => x.isNaN
  | .array items => anyHasNaN items
  | _ => false

def anyHasNaN : List Value → Bool
  | [] => false
  | item :: rest => hasNaN item || anyHasNaN rest

end

/-! ### Display -/

/-- How values show doubles: all digits in place, and no point on a whole number. -/
def floatNotation : Decimal.Notation where
  positional := fun _ => true
  keepsFraction := false
  tie := .away

/-- The text of a double. -/
def displayFloat (x : Binary64) : String :=
  if x.isNaN then "NaN"
  else if x.isFinite then String.ofList (floatNotation.write x)
  else if x.isNegative then "-inf"
  else "inf"

mutual

/-- The text of a value: texts as they are, sequences in brackets. -/
def display : Value → String
  | .null => "null"
  | .bool true => "true"
  | .bool false => "false"
  | .int i => String.ofList (Decimal.integer i.toInt)
  | .uint u => String.ofList (Decimal.integer u.toNat)
  | .float x => displayFloat x
  | .string s => s
  | .array items => "[" ++ displayItems items ++ "]"

/-- The texts of the items with commas between them. -/
def displayItems : List Value → String
  | [] => ""
  | [item] => display item
  | item :: next :: rest => display item ++ ", " ++ displayItems (next :: rest)

end

end Value
end QueryFilter

/-
# Order specs

An ordering is written as text in one of three notations that say the same:
`name.asc`, `+name` and `asc(name)`, and with `desc` or `-` for the other
direction. The reference is any text that is not empty and stays on one line.

Key definitions: `OrderSpec`, `OrderSpec.parse`.
-/
import QueryFilter.Error
import QueryFilter.Text.Blank
import QueryFilter.Text.Cut

namespace QueryFilter

/-- A reference to a column and a direction. -/
structure OrderSpec where
  reference : String
  ascending : Bool
  deriving DecidableEq, Repr

namespace OrderSpec

/-- Whether a text may be a reference in a spec. -/
def isReference (cs : List Char) : Bool := !cs.isEmpty && !cs.contains '\n'

/-- The word for a direction. -/
def word : Bool → List Char
  | true => ['a', 's', 'c']
  | false => ['d', 'e', 's', 'c']

/-- The sign for a direction. -/
def sign : Bool → Char
  | true => '+'
  | false => '-'

/-- The reference before a point and the word for a direction. -/
def suffixed? (ascending : Bool) (cs : List Char) : Option (List Char) :=
  (Text.beforeBack? ('.' :: word ascending) cs).filter isReference

/-- The reference behind the sign for a direction. -/
def signed? (ascending : Bool) (cs : List Char) : Option (List Char) :=
  (Text.afterFront? [sign ascending] cs).filter isReference

/-- The reference in brackets behind the word for a direction. -/
def called? (ascending : Bool) (cs : List Char) : Option (List Char) :=
  ((Text.afterFront? (word ascending ++ ['(']) cs).bind (Text.beforeBack? [')'])).filter isReference

/-- The spec in one of the notations, if it is in that notation. -/
def inNotation? (reference? : Bool → List Char → Option (List Char)) (cs : List Char) :
    Option OrderSpec :=
  match reference? true cs, reference? false cs with
  | some r, _ => some ⟨String.ofList r, true⟩
  | none, some r => some ⟨String.ofList r, false⟩
  | none, none => none

/-- The spec of a text without blanks at its ends, the notations tried in turn. -/
def ofTrimmed? (cs : List Char) : Option OrderSpec :=
  [suffixed?, signed?, called?].findSome? fun reference? => inNotation? reference? cs

/-- The spec of a text. -/
def parse (s : String) : Except FilterError OrderSpec :=
  match ofTrimmed? (Text.trimChars s.toList) with
  | some spec => .ok spec
  | none => .error (.badOrderSpec (Text.trim s))

end OrderSpec
end QueryFilter

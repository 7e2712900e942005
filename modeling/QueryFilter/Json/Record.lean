/-
# Records in JSON documents

A record is written as an object with a member for each field, or as an array
of the fields in their order. Members under other keys are passed over,
whatever they hold; a field given twice is refused. A table of entries is an
object in which the last entry of a key counts.

Key definitions: `Json.Document.fields?`, `Json.Document.entries?`,
`Json.Document.text?`, `Json.Document.variant?`.
-/
import QueryFilter.Json.Document

namespace QueryFilter
namespace Json
namespace Document

/-- The text of a string. -/
def text? : Document → Option String
  | .string text => text
  | _ => none

/-- The items of an array. -/
def items? : Document → Option (List Document)
  | .array items => some items
  | _ => none

/-- The member of a field; refused if there are several. -/
def field? (name : String) (members : List (Option String × Document)) : Option (Option Document) :=
  match members.filter fun m => m.1 = some name with
  | [] => some none
  | [m] => some (some m.2)
  | _ => none

/-- The fields by their places, those behind the end missing. -/
def byPlace : List String → List Document → List (Option Document)
  | [], _ => []
  | _ :: names, [] => none :: byPlace names []
  | _ :: names, item :: rest => some item :: byPlace names rest

/-- The fields of a record in the order of their names. -/
def fields? (names : List String) : Document → Option (List (Option Document))
  | .object members =>
    if members.all fun m => m.1.isSome then names.mapM fun name => field? name members else none
  | .array items => if items.length ≤ names.length then some (byPlace names items) else none
  | _ => none

/-- The entries of a table, each read by `read`. -/
def entries? {α : Type} (read : String → Document → Option α) : Document → Option (List α)
  | .object members => members.mapM fun m => m.1.bind fun key => read key m.2
  | _ => none

/-- The word of a choice: a string, or an object with the word over `null`. -/
def variant? : Document → Option String
  | .string text => text
  | .object [(text, .null)] => text
  | _ => none

end Document
end Json
end QueryFilter

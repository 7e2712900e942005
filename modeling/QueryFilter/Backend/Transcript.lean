/-
# A backend that writes down what it is asked for

Predicates are texts, and a query is the list of the steps taken on it. A
column is written with its table and its own name, whatever its label is.

Key definitions: `Transcript`, `Transcript.backend`.
-/
import QueryFilter.Backend

namespace QueryFilter

/-- A query that keeps the steps taken on it. -/
structure Transcript where
  selection : Selection
  steps : List String

namespace Transcript

/-- A query without steps. -/
def start (selection : Selection) : Transcript := ⟨selection, []⟩

/-- The query with one more step. -/
def step (t : Transcript) (text : String) : Transcript := ⟨t.selection, t.steps ++ [text]⟩

/-- The text of a count. -/
def count (n : UInt64) : String := String.ofList (Nat.toDigits 10 n.toNat)

/-- The text of an ordering. -/
def ordering (o : OrderBy Column) : String :=
  o.column.qualifiedName ++ (if o.ascending then " asc" else " desc")

/-- Texts in brackets with a word between them. -/
def bracket (word : String) (texts : List String) : String :=
  "(" ++ String.intercalate (" " ++ word ++ " ") texts ++ ")"

/-- The backend that writes down. -/
def backend : Backend Column String Transcript where
  selected := fun t name => t.selection.column? name
  evaluate := fun column op => column.qualifiedName ++ " " ++ op.display
  conj := bracket "AND"
  disj := bracket "OR"
  applyPredicate := fun t predicate => t.step ("where " ++ predicate)
  applyLimit := fun t n => t.step ("limit " ++ count n)
  applyOffset := fun t n => t.step ("offset " ++ count n)
  applyOrdering := fun t os =>
    t.step ("order by " ++ String.intercalate ", " (os.map ordering))

end Transcript
end QueryFilter

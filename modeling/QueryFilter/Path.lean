/-
# Paths into an expression

A path is a list of segments, written with points between them. Every segment
but the last names a junction. The last selects one member of the junction
reached: a junction by its name, or a leaf by its column, by its column and
operator (`age:gt`), or by these and the text of its value (`age:gt-20`).

Key definitions: `Path`, `Path.parse`, `Path.parent`, `Selector`,
`Selector.parse`, `Selector.matchesLeaf`.
-/
import QueryFilter.Operator
import QueryFilter.Text.Cut

namespace QueryFilter

/-- The segments on the way to a node; none lead to the receiver itself. -/
structure Path where
  segments : List String
  deriving DecidableEq, Repr

namespace Path

def root : Path := ⟨[]⟩

/-- The path of a text; the empty text is the root. -/
def parse (s : String) : Path :=
  if s.isEmpty then root else ⟨Text.split '.' s⟩

def isEmpty (p : Path) : Bool := p.segments.isEmpty

def length (p : Path) : Nat := p.segments.length

/-- The path without its last segment. -/
def parent (p : Path) : Path := ⟨p.segments.dropLast⟩

/-- The junctions that segments name; the first that names none is an error. -/
def junctions : List String → Except FilterError (List Junction)
  | [] => .ok []
  | segment :: rest =>
    match Junction.ofName? segment with
    | some kind => (junctions rest).map (kind :: ·)
    | none => .error (.notAJunction segment)

end Path

/-- What the last segment of a path selects. -/
inductive Selector where
  | junction (kind : Junction)
  | column (name : String)
  | operator (name symbol : String)
  | value (name symbol literal : String)
  deriving DecidableEq, Repr

namespace Selector

/-- The selector of a segment. The operator stands behind the first colon, and
the literal behind the first hyphen after it. -/
def parse (segment : String) : Selector :=
  match Junction.ofName? segment with
  | some kind => .junction kind
  | none =>
    match Text.cut? ':' segment with
    | none => .column segment
    | some (name, rest) =>
      match Text.cut? '-' rest with
      | none => .operator name rest
      | some (symbol, literal) => .value name symbol literal

/-- Whether a leaf with this column name and operator is selected. -/
def matchesLeaf (s : Selector) (column : String) (op : Operator) : Bool :=
  match s with
  | .junction _ => false
  | .column name => name = column
  | .operator name symbol => name = column && OperatorKind.ofSymbol? symbol = some op.kind
  | .value name symbol literal =>
    name = column && OperatorKind.ofSymbol? symbol = some op.kind && op.value.display = literal

end Selector
end QueryFilter

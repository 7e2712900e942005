/-
# Finding a node by its path

Each segment but the last leads to the first child that is a junction of its
name; the last picks the first child that it selects. A path whose segments
before the last do not all name junctions is an error, wherever it would lead.

Key definitions: `Store.descend`, `Store.select`, `Store.find`,
`Store.resolve`.
-/
import QueryFilter.Path
import QueryFilter.Store.Basic

namespace QueryFilter
namespace Store

variable {C : Type}

/-- The node reached from a node through the first children of these kinds. -/
def descend (s : Store C) (h : Handle) : List Junction → Option Handle
  | [] => some h
  | kind :: rest =>
    ((s.children h).find? fun child => s.kind? child = some kind).bind fun child =>
      descend s child rest

/-- Whether a selector selects a node. A leaf may be named by its column's
name or by its reference. -/
def isSelected [ColumnRef C] (s : Store C) (selector : Selector) (h : Handle) : Bool :=
  match s.node? h with
  | some (.junction kind _) => selector = .junction kind
  | some (.leaf column op) =>
    selector.matchesLeaf (ColumnRef.name column) op ||
      selector.matchesLeaf (ColumnRef.reference column) op
  | none => false

/-- The first child that a segment selects. -/
def select [ColumnRef C] (s : Store C) (h : Handle) (segment : String) : Option Handle :=
  (s.children h).find? (s.isSelected (Selector.parse segment))

/-- The node at a path below a node. -/
def find [ColumnRef C] (s : Store C) (h : Handle) (path : Path) :
    Except FilterError (Option Handle) :=
  match path.segments.getLast? with
  | none => .ok (some h)
  | some last => do
    let kinds ← Path.junctions path.parent.segments
    .ok ((s.descend h kinds).bind fun parent => s.select parent last)

/-- The node at a path, which has to be there. -/
def resolve [ColumnRef C] (s : Store C) (h : Handle) (path : Path) :
    Except FilterError Handle := do
  match ← s.find h path with
  | some target => .ok target
  | none => .error .destinationNotFound

end Store
end QueryFilter

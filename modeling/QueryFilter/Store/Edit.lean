/-
# Editing in place

Each edit overwrites one node that is already there, the one its path leads to,
and leaves the store as it was if it fails. The node keeps its identity, so
every handle to it and every junction above it sees the change.

An expression may not be added to a node inside it; that is the only edit that
could put a node below itself.

Key definitions: `Store.add`, `Store.replace`, `Store.remove`.
-/
import QueryFilter.Store.Find

namespace QueryFilter
namespace Store

variable {C : Type}

/-- The store with `added` under the node `target`: at the end of a junction;
a leaf becomes a junction of its former content and the addition. -/
def attach (s : Store C) (target added : Handle) (implicit : Junction) : Store C :=
  match s.node? target with
  | some (.junction kind children) => s.overwrite target (.junction kind (children ++ [added]))
  | some (.leaf column op) =>
    let (s, former) := s.alloc (.leaf column op)
    s.overwrite target (.junction implicit [former, added])
  | none => s

/-- The store with an expression added at a path; `implicit` joins it to a leaf. -/
def add [ColumnRef C] (s : Store C) (h : Handle) (path : Path) (added : Handle)
    (implicit : Junction) : Except FilterError (Store C) := do
  let target ← s.resolve h path
  if s.contains added target then .error .addedIntoItself
  else .ok (s.attach target added implicit)

/-- The store with a copy of an expression in the node at a path. -/
def replace [ColumnRef C] (s : Store C) (h : Handle) (path : Path) (source : Handle) :
    Except FilterError (Store C) := do
  let target ← s.resolve h path
  let (s, content) := s.graft (s.tree source)
  .ok (s.overwrite target content)

/-- The store with the first child of `parent` that is `target` taken away. -/
def detach (s : Store C) (parent target : Handle) : Store C :=
  match s.node? parent with
  | some (.junction kind children) => s.overwrite parent (.junction kind (children.erase target))
  | _ => s

/-- The store with the node at a path taken away from its parent. -/
def remove [ColumnRef C] (s : Store C) (h : Handle) (path : Path) :
    Except FilterError (Store C) := do
  if path.isEmpty then .error .rootNotRemovable
  else
    let parent ← s.resolve h path.parent
    let target ← s.resolve h path
    .ok (s.detach parent target)

end Store
end QueryFilter

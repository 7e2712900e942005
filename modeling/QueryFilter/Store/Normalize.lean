/-
# Normal form in place

Normalizing a node overwrites it and the junctions below it: the children first,
then the node, which drops its empty children and takes over the content of an
only child. Taking over is not copying: the children of the only child are
then shared with whoever holds it.

Key definitions: `Store.settle`, `Store.normalize`, `Store.write`.
-/
import QueryFilter.Filter
import QueryFilter.Store.Basic

namespace QueryFilter
namespace Store

variable {C : Type}

/-- The store with a junction overwritten: without its empty children, or with
the content of its only child. -/
def settle (s : Store C) (h : Handle) : Store C :=
  match s.node? h with
  | some (.junction kind children) =>
    match children.filter fun child => !s.isEmpty child with
    | [only] =>
      match s.node? only with
      | some content => s.overwrite h content
      | none => s
    | kept => s.overwrite h (.junction kind kept)
  | _ => s

/-- The store with a node normalized, following children `fuel` times. -/
def normalizeWithin : Nat → Store C → Handle → Store C
  | 0, s, _ => s
  | fuel + 1, s, h =>
    match s.node? h with
    | some (.junction _ children) => (children.foldl (normalizeWithin fuel) s).settle h
    | _ => s

/-- The store with a node and all junctions below it in normal form. -/
def normalize (s : Store C) (h : Handle) : Store C := normalizeWithin s.size s h

/-- Writes a node and modifiers as a filter. The node is normalized in place. -/
def write [ColumnRef C] (s : Store C) (h : Option Handle) (modifiers : Modifiers C) :
    Store C × Except FilterError (List (String × Json)) :=
  let s := h.elim s s.normalize
  (s, Filter.writeAsIs ⟨h.map s.tree, modifiers⟩)

end Store
end QueryFilter

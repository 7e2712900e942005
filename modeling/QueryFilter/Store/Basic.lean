/-
# Shared expressions

Expressions that are edited in place. A `Store` holds nodes; a `Handle` names
one of them. A node may be a child of several junctions and may be held by
several handles, and an edit of it is seen through all of them. Nodes are
added and overwritten but never taken away.

`Store.tree` is what a handle stands for: the expression unfolded from its
node. Following children takes at most one step for each node of the store as
long as no node is below itself, which the edits see to; so the number of
nodes is fuel enough, and the view of a node beyond it does not matter.

Key definitions: `Handle`, `Node`, `Store`, `Store.tree`, `Store.alloc`,
`Store.plant`, `Store.contains`, `Store.same`.
Key theorems: `Store.node?_alloc_self`, `Store.node?_alloc_of_lt`,
`Store.node?_overwrite_self`, `Store.node?_overwrite_of_ne`.
-/
import QueryFilter.Expr.Basic

namespace QueryFilter

/-- The name of a node in a store. -/
structure Handle where
  index : Nat
  deriving DecidableEq, Repr

/-- A node: a comparison, or a junction of nodes. -/
inductive Node (C : Type) where
  | leaf (column : C) (op : Operator)
  | junction (kind : Junction) (children : List Handle)

namespace Node

variable {C : Type}

/-- The junction that a node is, if it is one. -/
def kind? : Node C → Option Junction
  | .leaf _ _ => none
  | .junction kind _ => some kind

def children : Node C → List Handle
  | .leaf _ _ => []
  | .junction _ children => children

end Node

/-- Nodes in the order in which they were made. -/
structure Store (C : Type) where
  nodes : Array (Node C)

namespace Store

variable {C : Type}

def empty : Store C := ⟨#[]⟩

def size (s : Store C) : Nat := s.nodes.size

/-- The node of a handle. -/
def node? (s : Store C) (h : Handle) : Option (Node C) := s.nodes[h.index]?

/-! ### Changing nodes -/

/-- The store with a new node. -/
def alloc (s : Store C) (n : Node C) : Store C × Handle := (⟨s.nodes.push n⟩, ⟨s.size⟩)

/-- The store with the content of a node overwritten. -/
def overwrite (s : Store C) (h : Handle) (n : Node C) : Store C := ⟨s.nodes.setIfInBounds h.index n⟩

theorem node?_alloc_self (s : Store C) (n : Node C) :
    (s.alloc n).1.node? (s.alloc n).2 = some n := by
  simp [alloc, node?, size]

theorem node?_alloc_of_lt (s : Store C) (n : Node C) (h : Handle) (hs : h.index < s.size) :
    (s.alloc n).1.node? h = s.node? h := by
  simp only [alloc, node?]
  exact Array.getElem?_push_lt hs ▸ (Array.getElem?_eq_getElem hs).symm

theorem size_overwrite (s : Store C) (h : Handle) (n : Node C) : (s.overwrite h n).size = s.size := by
  simp [overwrite, size]

theorem node?_overwrite_self (s : Store C) (h : Handle) (n : Node C) (hs : h.index < s.size) :
    (s.overwrite h n).node? h = some n := by
  simp only [overwrite, node?, size] at *
  simp [hs]

theorem node?_overwrite_of_ne (s : Store C) {h h' : Handle} (n : Node C) (hne : h ≠ h') :
    (s.overwrite h n).node? h' = s.node? h' := by
  have : h.index ≠ h'.index := fun he => hne (by cases h; cases h'; simp_all)
  simp only [overwrite, node?]
  exact Array.getElem?_setIfInBounds_ne this

/-! ### The view -/

/-- The expression unfolded from a node, following children `fuel` times. -/
def treeWithin (s : Store C) : Nat → Handle → Expr C
  | 0, _ => .junction .and []
  | fuel + 1, h =>
    match s.node? h with
    | some (.leaf column op) => .leaf column op
    | some (.junction kind children) => .junction kind (children.map (treeWithin s fuel))
    | none => .junction .and []

/-- The expression that a handle stands for. -/
def tree (s : Store C) (h : Handle) : Expr C := s.treeWithin s.size h

/-! ### Making nodes -/

mutual

/-- The store with new nodes for all that is below an expression, and the node
of the expression itself, which is not yet in it. -/
def graft (s : Store C) : Expr C → Store C × Node C
  | .leaf column op => (s, .leaf column op)
  | .junction kind children =>
    let (s, hs) := graftAll s children
    (s, .junction kind hs)

/-- The store with new nodes for expressions and all that is below them. -/
def graftAll (s : Store C) : List (Expr C) → Store C × List Handle
  | [] => (s, [])
  | e :: rest =>
    let (s, n) := graft s e
    let (s, h) := s.alloc n
    let (s, hs) := graftAll s rest
    (s, h :: hs)

end

/-- The store with new nodes for an expression, shared with no other. -/
def plant (s : Store C) (e : Expr C) : Store C × Handle :=
  let (s, n) := s.graft e
  s.alloc n

/-- A new leaf. -/
def leaf (s : Store C) (column : C) (op : Operator) : Store C × Handle := s.alloc (.leaf column op)

/-- A new junction of nodes that are there already. -/
def junction (s : Store C) (kind : Junction) (children : List Handle) : Store C × Handle :=
  s.alloc (.junction kind children)

/-- Several nodes as one: none if there are none, a single one as it is, and
more under a new junction. -/
def joined (s : Store C) (kind : Junction) : List Handle → Store C × Option Handle
  | [] => (s, none)
  | [h] => (s, some h)
  | hs =>
    let (s, h) := s.junction kind hs
    (s, some h)

/-- New nodes for what a handle stands for. -/
def copy (s : Store C) (h : Handle) : Store C × Handle := s.plant (s.tree h)

/-! ### Looking at nodes -/

/-- The handles of the children of a node. -/
def children (s : Store C) (h : Handle) : List Handle :=
  match s.node? h with
  | some n => n.children
  | none => []

/-- The junction that a node is, if it is one. -/
def kind? (s : Store C) (h : Handle) : Option Junction := (s.node? h).bind Node.kind?

/-- Whether a node is a junction of nothing. -/
def isEmpty (s : Store C) (h : Handle) : Bool :=
  match s.node? h with
  | some (.junction _ children) => children.isEmpty
  | _ => false

/-- Whether a node is met on the way down from another, in `fuel` steps. -/
def containsWithin (s : Store C) (target : Handle) : Nat → Handle → Bool
  | 0, h => h = target
  | fuel + 1, h => h = target || (s.children h).any (containsWithin s target fuel)

/-- Whether `target` is the node of `h` or below it. -/
def contains (s : Store C) (h target : Handle) : Bool := s.containsWithin target s.size h

/-- Whether two nodes are one or have equal content, followed down `fuel` times. -/
def sameWithin [BEq C] (s : Store C) : Nat → Handle → Handle → Bool
  | 0, a, b => a = b
  | fuel + 1, a, b =>
    a = b ||
      match s.node? a, s.node? b with
      | some (.leaf c op), some (.leaf c' op') => c == c' && op == op'
      | some (.junction k as), some (.junction k' bs) =>
        k == k' && as.length == bs.length && (as.zip bs).all fun p => sameWithin s fuel p.1 p.2
      | _, _ => false

/-- Whether two handles stand for equal expressions. A node equals itself,
whatever is in it; nodes that are not one are compared by their content. -/
def same [BEq C] (s : Store C) (a b : Handle) : Bool := s.sameWithin s.size a b

end Store
end QueryFilter

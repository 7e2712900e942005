/-
# Nodes as cells

A node that is being rewritten is held: until it is let go, nothing may look at
it. `Cells` is a store together with the nodes that are held, and the
operations on a store are given here step by step on cells. To look at a held
node is a fault, and so is a recursion deeper than there are nodes: the one
would stop the program, the other would never end. Nothing in the operations on
stores can go wrong that way; `Store.Sound.safe` says that they do what these do.

A recursion over what is below a node looks at the node first and then at its
children in their order; one that stops at an error looks at fewer of them.

Key definitions: `Fault`, `Cells`, `Cells.fold`, `Cells.contains`,
`Cells.same`, `Cells.normalize`, `Cells.add`, `Cells.replace`,
`Cells.remove`.
-/
import QueryFilter.Proofs.Expr.Algebra
import QueryFilter.Store.Edit
import QueryFilter.Store.Normalize

namespace QueryFilter

variable {C P Q β : Type}

/-- Why an operation on cells cannot go on. -/
inductive Fault where
  /-- The node is held. -/
  | held (h : Handle)
  /-- There is no such node. -/
  | missing (h : Handle)
  /-- The recursion is deeper than there are nodes. -/
  | unfinished

/-- A store and the nodes of it that are held. -/
structure Cells (C : Type) where
  store : Store C
  held : List Handle

namespace Cells

/-- The cells of a store of which no node is held. -/
def idle (s : Store C) : Cells C := ⟨s, []⟩

/-- The content of a node that is not held. -/
def read (m : Cells C) (h : Handle) : Except Fault (Node C) :=
  if h ∈ m.held then .error (.held h)
  else
    match m.store.node? h with
    | some n => .ok n
    | none => .error (.missing h)

/-- The content of a node, which is then held. -/
def hold (m : Cells C) (h : Handle) : Except Fault (Node C × Cells C) :=
  (m.read h).map fun n => (n, ⟨m.store, h :: m.held⟩)

/-- A held node is given new content and let go. -/
def put (m : Cells C) (h : Handle) (n : Node C) : Cells C :=
  ⟨m.store.overwrite h n, m.held.erase h⟩

/-! ### Looking below a node -/

/-- What an algebra makes of what is below a node, `fuel` levels down. -/
def foldWithin (m : Cells C) (a : Expr.Algebra C β) : Nat → Handle → Except Fault β
  | 0, _ => .error .unfinished
  | fuel + 1, h => do
    match ← m.read h with
    | .leaf column op => .ok (a.leaf column op)
    | .junction kind children => do
      let results ← children.mapM (foldWithin m a fuel)
      .ok (a.junction kind results)

/-- What an algebra makes of what a handle stands for. -/
def fold (m : Cells C) (a : Expr.Algebra C β) (h : Handle) : Except Fault β :=
  m.foldWithin a m.store.size h

/-- The predicate of what a handle stands for, if it has one. -/
def render (m : Cells C) (b : Backend C P Q) (h : Handle) : Except Fault (Option P) :=
  m.fold (Expr.rendering b) h

/-- The text of what a handle stands for. -/
def display [ColumnRef C] (m : Cells C) (h : Handle) : Except Fault String :=
  m.fold Expr.showing h

/-- What a handle stands for, as members of an object. -/
def dump [ColumnRef C] (m : Cells C) (h : Handle) :
    Except Fault (Except FilterError (List (String × Json))) :=
  (m.fold Expr.writing h).map fun result => result.map fun e => [(e.1, .object e.2)]

/-- New nodes for what a handle stands for. -/
def copy (m : Cells C) (h : Handle) : Except Fault (Cells C × Handle) := do
  let e ← m.fold Expr.rebuilding h
  let (s, c) := m.store.plant e
  .ok (⟨s, m.held⟩, c)

/-- Whether a node is met on the way down from another, `fuel` levels down. -/
def containsWithin (m : Cells C) (target : Handle) : Nat → Handle → Except Fault Bool
  | 0, _ => .error .unfinished
  | fuel + 1, h => do
    if h = target then .ok true
    else
      let n ← m.read h
      n.children.anyM (containsWithin m target fuel)

def contains (m : Cells C) (h target : Handle) : Except Fault Bool :=
  m.containsWithin target m.store.size h

/-- Whether two nodes are one or have equal content, `fuel` levels down. -/
def sameWithin [BEq C] (m : Cells C) : Nat → Handle → Handle → Except Fault Bool
  | 0, _, _ => .error .unfinished
  | fuel + 1, a, b => do
    if a = b then .ok true
    else
      let n ← m.read a
      let n' ← m.read b
      match n, n' with
      | .leaf c op, .leaf c' op' => .ok (c == c' && op == op')
      | .junction k as, .junction k' bs =>
        if k == k' && as.length == bs.length then
          (as.zip bs).allM fun p => sameWithin m fuel p.1 p.2
        else .ok false
      | _, _ => .ok false

def same [BEq C] (m : Cells C) (a b : Handle) : Except Fault Bool :=
  m.sameWithin m.store.size a b

/-! ### Normalizing -/

/-- Those of some nodes that are not junctions of nothing. -/
def keep (m : Cells C) : List Handle → Except Fault (List Handle)
  | [] => .ok []
  | c :: rest => do
    let _ ← m.read c
    let kept ← keep m rest
    .ok (if m.store.isEmpty c then kept else c :: kept)

/-- A junction is held while its children are looked at, and then loses the
empty ones or takes over the content of an only child. -/
def settle (m : Cells C) (h : Handle) : Except Fault (Cells C) := do
  let (n, holding) ← m.hold h
  match n with
  | .leaf _ _ => .ok m
  | .junction kind children =>
    match ← holding.keep children with
    | [only] => do
      let content ← holding.read only
      .ok (holding.put h content)
    | kept => .ok (holding.put h (.junction kind kept))

/-- The children are normalized before their parent is held. -/
def normalizeWithin : Nat → Cells C → Handle → Except Fault (Cells C)
  | 0, _, _ => .error .unfinished
  | fuel + 1, m, h => do
    match ← m.read h with
    | .leaf _ _ => .ok m
    | .junction _ children => do
      let m ← children.foldlM (normalizeWithin fuel) m
      m.settle h

def normalize (m : Cells C) (h : Handle) : Except Fault (Cells C) :=
  normalizeWithin m.store.size m h

/-! ### Finding -/

/-- The first of some nodes that meets a condition; the nodes behind it are not
looked at. -/
def first (m : Cells C) (p : Handle → Bool) : List Handle → Except Fault (Option Handle)
  | [] => .ok none
  | c :: rest => do
    let _ ← m.read c
    if p c then .ok (some c) else first m p rest

/-- The node reached from a node through the first children of these kinds. -/
def descend (m : Cells C) (h : Handle) : List Junction → Except Fault (Option Handle)
  | [] => .ok (some h)
  | kind :: rest => do
    let n ← m.read h
    match ← m.first (fun c => m.store.kind? c = some kind) n.children with
    | some c => descend m c rest
    | none => .ok none

variable [ColumnRef C]

/-- The first child that a segment selects. -/
def select (m : Cells C) (h : Handle) (segment : String) : Except Fault (Option Handle) := do
  let n ← m.read h
  m.first (m.store.isSelected (Selector.parse segment)) n.children

/-- The node at a path below a node. -/
def find (m : Cells C) (h : Handle) (path : Path) :
    Except Fault (Except FilterError (Option Handle)) :=
  match path.segments.getLast? with
  | none => .ok (.ok (some h))
  | some last =>
    match Path.junctions path.parent.segments with
    | .error err => .ok (.error err)
    | .ok kinds => do
      match ← m.descend h kinds with
      | some parent => (m.select parent last).map .ok
      | none => .ok (.ok none)

/-- The node at a path, which has to be there. -/
def resolve (m : Cells C) (h : Handle) (path : Path) :
    Except Fault (Except FilterError Handle) :=
  (m.find h path).map fun
    | .ok (some target) => .ok target
    | .ok none => .error .destinationNotFound
    | .error err => .error err

/-! ### Edits by path -/

/-- The target is held once it is known that it is not in what is added. -/
def add (m : Cells C) (h : Handle) (path : Path) (added : Handle) (implicit : Junction) :
    Except Fault (Except FilterError (Cells C)) := do
  match ← m.resolve h path with
  | .error err => .ok (.error err)
  | .ok target =>
    if ← m.contains added target then .ok (.error .addedIntoItself)
    else
      let (n, holding) ← m.hold target
      match n with
      | .junction kind children =>
        .ok (.ok (holding.put target (.junction kind (children ++ [added]))))
      | .leaf column op =>
        let (s, former) := holding.store.alloc (.leaf column op)
        .ok (.ok (put ⟨s, holding.held⟩ target (.junction implicit [former, added])))

/-- The source is copied before the target is held. -/
def replace (m : Cells C) (h : Handle) (path : Path) (source : Handle) :
    Except Fault (Except FilterError (Cells C)) := do
  match ← m.resolve h path with
  | .error err => .ok (.error err)
  | .ok target =>
    let e ← m.fold Expr.rebuilding source
    let (s, content) := m.store.graft e
    let (_, holding) ← hold ⟨s, m.held⟩ target
    .ok (.ok (holding.put target content))

/-- The parent is held while its child is taken away. -/
def remove (m : Cells C) (h : Handle) (path : Path) :
    Except Fault (Except FilterError (Cells C)) := do
  if path.isEmpty then .ok (.error .rootNotRemovable)
  else
    match ← m.resolve h path.parent with
    | .error err => .ok (.error err)
    | .ok parent =>
      match ← m.resolve h path with
      | .error err => .ok (.error err)
      | .ok target =>
        let (n, holding) ← m.hold parent
        match n with
        | .junction kind children =>
          .ok (.ok (holding.put parent (.junction kind (children.erase target))))
        | .leaf _ _ => .ok (.ok m)

end Cells
end QueryFilter

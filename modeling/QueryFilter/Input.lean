/-
# Filters as given

A filter arrives as a tree of keyed nodes: a leaf holds a value, a list holds
nodes keyed by their places, and a map holds nodes under keys of their own.
Keys may repeat, and the order of the nodes is kept.

Key definitions: `InputNode`, `FilterInput`, `InputNode.ofJson`,
`InputNode.toJson`, `FilterInput.parse`, `InputNode.same`.
Key theorems: `InputNode.induction`.
-/
import QueryFilter.Error
import QueryFilter.Json.Reader
import QueryFilter.Value.Json

namespace QueryFilter

/-- A keyed node of a filter as given. -/
inductive InputNode where
  | leaf (key : String) (value : Value)
  | list (key : String) (children : List InputNode)
  | map (key : String) (children : List InputNode)
  deriving Inhabited

/-- A filter as given: the nodes at its top. -/
structure FilterInput where
  nodes : List InputNode

/-- The key of a place in a list. -/
def indexKey (index : Nat) : String := String.ofList (Nat.toDigits 10 index)

namespace InputNode

def key : InputNode → String
  | .leaf key _ => key
  | .list key _ => key
  | .map key _ => key

/-- The value of a leaf. -/
def value? : InputNode → Option Value
  | .leaf _ value => some value
  | _ => none

/-- The nodes below, of which a leaf has none. -/
def children : InputNode → List InputNode
  | .leaf _ _ => []
  | .list _ children => children
  | .map _ children => children

/-- What holds of a node if it holds of the nodes below it holds of every node. -/
@[elab_as_elim]
theorem induction {motive : InputNode → Prop}
    (step : ∀ node, (∀ child ∈ node.children, motive child) → motive node) :
    ∀ node, motive node
  | .leaf key value => step (.leaf key value) fun child h => by cases h
  | .list key children => step (.list key children) fun child h =>
    have := List.sizeOf_lt_of_mem h
    induction step child
  | .map key children => step (.map key children) fun child h =>
    have := List.sizeOf_lt_of_mem h
    induction step child
termination_by node => sizeOf node
decreasing_by all_goals simp_wf; simp only [InputNode.children] at this; omega

def isLeaf : InputNode → Bool
  | .leaf _ _ => true
  | _ => false

/-- A list with nothing but leaves in it. -/
def isSimpleList : InputNode → Bool
  | .list _ children => children.all isLeaf
  | _ => false

/-- The values of the leaves among the nodes below. -/
def leafValues (node : InputNode) : List Value := node.children.filterMap value?

/-- The leaves of a list of values from a place on. -/
def leavesFrom : Nat → List Value → List InputNode
  | _, [] => []
  | index, v :: rest => .leaf (indexKey index) v :: leavesFrom (index + 1) rest

/-- The list node of a list of values. -/
def ofValues (key : String) (values : List Value) : InputNode :=
  .list key (leavesFrom 0 values)

/-! ### From and to JSON -/

mutual

/-- The node of a JSON value under a key. -/
def ofJson (key : String) : Json → InputNode
  | .null => .leaf key .null
  | .bool b => .leaf key (.bool b)
  | .number n => .leaf key (Value.ofNumber n)
  | .string s => .leaf key (.string s)
  | .array items => .list key (ofItems 0 items)
  | .object members => .map key (ofMembers members)

/-- The nodes of the items of an array, from a place on. -/
def ofItems (index : Nat) : List Json → List InputNode
  | [] => []
  | item :: rest => ofJson (indexKey index) item :: ofItems (index + 1) rest

/-- The nodes of the members of an object. -/
def ofMembers : List (String × Json) → List InputNode
  | [] => []
  | (key, item) :: rest => ofJson key item :: ofMembers rest

end

mutual

/-- The JSON of what a node holds. In a map, a repeated key keeps its first
place and its last value. -/
def toJson : InputNode → Json
  | .leaf _ value => value.toJson
  | .list _ children => .array (itemsToJson children)
  | .map _ children => .object (Json.ofMembers (membersToJson children))

def itemsToJson : List InputNode → List Json
  | [] => []
  | node :: rest => toJson node :: itemsToJson rest

def membersToJson : List InputNode → List (String × Json)
  | [] => []
  | node :: rest => (node.key, toJson node) :: membersToJson rest

end

/-! ### Equality -/

mutual

/-- Whether two nodes have one key and equal content. -/
def same : InputNode → InputNode → Bool
  | .leaf k v, .leaf k' v' => k == k' && v == v'
  | .list k cs, .list k' cs' => k == k' && sameAll cs cs'
  | .map k cs, .map k' cs' => k == k' && sameAll cs cs'
  | _, _ => false

def sameAll : List InputNode → List InputNode → Bool
  | [], [] => true
  | c :: cs, c' :: cs' => same c c' && sameAll cs cs'
  | _, _ => false

end

end InputNode

namespace FilterInput

instance : BEq FilterInput := ⟨fun a b => InputNode.sameAll a.nodes b.nodes⟩

/-- The filter of the members of an object. -/
def ofMembers (members : List (String × Json)) : FilterInput := ⟨InputNode.ofMembers members⟩

/-- The filter of a JSON value, which has to be an object. -/
def ofJson : Json → Except FilterError FilterInput
  | .object members => .ok (ofMembers members)
  | _ => .error .notAnObject

/-- The filter of a JSON text. -/
def parse (text : String) : Except FilterError FilterInput :=
  match Json.parse? text Json.Document.maxLevels with
  | some j => ofJson j
  | none => .error .notJson

/-- The filter with one more node at the end. -/
def push (input : FilterInput) (node : InputNode) : FilterInput := ⟨input.nodes ++ [node]⟩

def isEmpty (input : FilterInput) : Bool := input.nodes.isEmpty

/-- The JSON of a filter. -/
def toJson (input : FilterInput) : Json :=
  .object (Json.ofMembers (InputNode.membersToJson input.nodes))

end FilterInput
end QueryFilter

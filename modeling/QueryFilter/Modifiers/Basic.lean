/-
# Modifiers

The limit, the offset and the orderings of a filter, collected beside its
predicate. A later limit or offset takes the place of an earlier one;
orderings are added behind those already there.

Key definitions: `Modifiers`, `Modifiers.apply`, `Modifiers.dump`,
`OrderBy.spec`.
-/
import QueryFilter.Backend
import QueryFilter.Modifiers.OrderSpec

namespace QueryFilter

namespace OrderBy

variable {C : Type} [ColumnRef C]

/-- The ordering in the notation with a sign. -/
def spec (o : OrderBy C) : String :=
  String.ofList (OrderSpec.sign o.ascending :: (ColumnRef.reference o.column).toList)

end OrderBy

/-- What a filter says about the result beside its predicate. -/
structure Modifiers (C : Type) where
  limit : Option UInt64
  offset : Option UInt64
  orderBy : List (OrderBy C)
  deriving DecidableEq

namespace Modifiers

variable {C P Q : Type}

def empty : Modifiers C := ⟨none, none, []⟩

def isEmpty (m : Modifiers C) : Bool := m.limit.isNone && m.offset.isNone && m.orderBy.isEmpty

def setLimit (m : Modifiers C) (n : UInt64) : Modifiers C := ⟨some n, m.offset, m.orderBy⟩

def setOffset (m : Modifiers C) (n : UInt64) : Modifiers C := ⟨m.limit, some n, m.orderBy⟩

/-- The modifiers with orderings behind those already there. -/
def addOrderBy (m : Modifiers C) (orderings : List (OrderBy C)) : Modifiers C :=
  ⟨m.limit, m.offset, m.orderBy ++ orderings⟩

/-- The query with the limit, the offset and the ordering applied, in this order. -/
def apply (m : Modifiers C) (b : Backend C P Q) (query : Q) : Q :=
  let query := m.limit.elim query (b.applyLimit query)
  let query := m.offset.elim query (b.applyOffset query)
  if m.orderBy.isEmpty then query else b.applyOrdering query m.orderBy

/-- A count under the key of a modifier. -/
def countMember (m : Modifier) (n : UInt64) : String × Json :=
  (m.key, .number (Json.Number.ofUInt64 n))

/-- The orderings under their key: none, a spec, or a list of specs. -/
def orderMembers [ColumnRef C] : List (OrderBy C) → List (String × Json)
  | [] => []
  | [o] => [(Modifier.orderBy.key, .string o.spec)]
  | os => [(Modifier.orderBy.key, .array (os.map fun o => .string o.spec))]

/-- The modifiers as members of an object. -/
def dump [ColumnRef C] (m : Modifiers C) : List (String × Json) :=
  (m.limit.map (countMember .limit)).toList ++ (m.offset.map (countMember .offset)).toList ++
    orderMembers m.orderBy

end Modifiers
end QueryFilter

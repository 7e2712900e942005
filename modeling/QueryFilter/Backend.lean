/-
# Backends

What runs a filter. A backend has its own predicates and its own queries: it
compares a column with an operator, joins predicates, and applies a predicate
or a modifier to a query. The engine never looks inside either.

Key definitions: `OrderBy`, `Backend`.
-/
import QueryFilter.Operator
import QueryFilter.Schema.Basic

namespace QueryFilter

/-- An ordering by one column. -/
structure OrderBy (C : Type) where
  column : C
  ascending : Bool
  deriving DecidableEq

/-- The operations of a backend with columns `C`, predicates `P` and queries `Q`. -/
structure Backend (C P Q : Type) where
  /-- An output column of a query, by its name or label. -/
  selected : Q → String → Option C
  evaluate : C → Operator → P
  conj : List P → P
  disj : List P → P
  applyPredicate : Q → P → Q
  applyLimit : Q → UInt64 → Q
  applyOffset : Q → UInt64 → Q
  applyOrdering : Q → List (OrderBy C) → Q

namespace Backend

variable {C P Q : Type}

/-- The predicate of several that a junction joins. -/
def join (b : Backend C P Q) : Junction → List P → P
  | .and => b.conj
  | .or => b.disj

end Backend
end QueryFilter

/-
# Expressions as predicates of a backend

A leaf is evaluated by the backend, and a junction joins the predicates of its
members. Members without a predicate are passed over; one predicate is not
joined with anything, and none is no predicate at all.

Key definitions: `Expr.render`, `Expr.apply`.
-/
import QueryFilter.Backend
import QueryFilter.Expr.Basic

namespace QueryFilter
namespace Expr

variable {C P Q : Type}

/-- The predicate of several under a junction. -/
def combine (b : Backend C P Q) (kind : Junction) : List P → Option P
  | [] => none
  | [p] => some p
  | ps => some (b.join kind ps)

mutual

/-- The predicate of an expression, if it says anything. -/
def render (b : Backend C P Q) : Expr C → Option P
  | .leaf column op => some (b.evaluate column op)
  | .junction kind children => combine b kind (renderAll b children)

/-- The predicates of the expressions that say anything. -/
def renderAll (b : Backend C P Q) : List (Expr C) → List P
  | [] => []
  | e :: rest => (render b e).toList ++ renderAll b rest

end

/-- The query with the predicate of the expression, if it says anything. -/
def apply (e : Expr C) (b : Backend C P Q) (query : Q) : Q :=
  (e.render b).elim query (b.applyPredicate query)

end Expr
end QueryFilter

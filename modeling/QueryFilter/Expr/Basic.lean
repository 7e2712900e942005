/-
# Filter expressions

The predicate of a filter as a tree: a leaf compares one column with one
operator, a junction combines expressions. An empty junction says nothing.

Key definitions: `Expr`, `Expr.joined`, `Expr.display`, `Expr.same`.
Key theorems: `Expr.joined_eq_none_iff`.
-/
import QueryFilter.Operator
import QueryFilter.Schema.Basic

namespace QueryFilter

/-- A filter expression over columns `C`. -/
inductive Expr (C : Type) where
  | leaf (column : C) (op : Operator)
  | junction (kind : Junction) (children : List (Expr C))

namespace Expr

variable {C : Type}

instance : Inhabited (Expr C) := ⟨.junction .and []⟩

/-- Whether the expression is a junction of nothing. -/
def isEmpty : Expr C → Bool
  | .leaf _ _ => false
  | .junction _ children => children.isEmpty

def children : Expr C → List (Expr C)
  | .leaf _ _ => []
  | .junction _ children => children

/-- Several expressions as one: none if there are none, a single one as it is,
and more under a junction. -/
def joined (kind : Junction) : List (Expr C) → Option (Expr C)
  | [] => none
  | [e] => some e
  | es => some (.junction kind es)

theorem joined_eq_none_iff {kind : Junction} {es : List (Expr C)} :
    joined kind es = none ↔ es = [] := by
  match es with
  | [] => simp [joined]
  | [_] => simp [joined]
  | _ :: _ :: _ => simp [joined]

/-! ### Display -/

mutual

/-- The text of an expression; a junction stands in brackets. -/
def display [ColumnRef C] : Expr C → String
  | .leaf column op => ColumnRef.name column ++ " " ++ op.display
  | .junction kind children => "(" ++ displayAll kind children ++ ")"

/-- The texts of the members of a junction with its word between them. -/
def displayAll [ColumnRef C] (kind : Junction) : List (Expr C) → String
  | [] => ""
  | [e] => display e
  | e :: next :: rest =>
    display e ++ " " ++ kind.connective ++ " " ++ displayAll kind (next :: rest)

end

/-! ### Equality -/

mutual

/-- Whether two expressions have one shape, and equal columns and operators. -/
def same [BEq C] : Expr C → Expr C → Bool
  | .leaf c op, .leaf c' op' => c == c' && op == op'
  | .junction k es, .junction k' es' => k == k' && sameAll es es'
  | _, _ => false

def sameAll [BEq C] : List (Expr C) → List (Expr C) → Bool
  | [], [] => true
  | e :: es, e' :: es' => same e e' && sameAll es es'
  | _, _ => false

end

instance [BEq C] : BEq (Expr C) := ⟨same⟩

end Expr
end QueryFilter

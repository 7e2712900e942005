/-
# Normal form

An expression says the same without its empty junctions and with every
junction of one member replaced by that member. `Expr.normalize` computes this
form from the leaves up; `Expr.IsNormal` says what it is without computing it.

Key definitions: `Expr.normalize`, `Expr.settle`, `Expr.IsNormal`.
-/
import QueryFilter.Expr.Basic

namespace QueryFilter
namespace Expr

variable {C : Type}

/-- A junction of these members, without the empty ones, or its only member. -/
def settle (kind : Junction) (children : List (Expr C)) : Expr C :=
  match children.filter fun e => !e.isEmpty with
  | [e] => e
  | es => .junction kind es

mutual

/-- The expression without empty junctions and junctions of one member. -/
def normalize : Expr C → Expr C
  | .leaf column op => .leaf column op
  | .junction kind children => settle kind (normalizeAll children)

def normalizeAll : List (Expr C) → List (Expr C)
  | [] => []
  | e :: rest => normalize e :: normalizeAll rest

end

mutual

/-- Every junction has at least two members. -/
def Full : Expr C → Prop
  | .leaf _ _ => True
  | .junction _ children => 2 ≤ children.length ∧ AllFull children

def AllFull : List (Expr C) → Prop
  | [] => True
  | e :: rest => Full e ∧ AllFull rest

end

/-- An expression is normal if its junctions have at least two members each,
or if it is an empty junction. -/
def IsNormal (e : Expr C) : Prop := Full e ∨ e.isEmpty = true

end Expr
end QueryFilter

/-
# Expressions as JSON

An expression is written as an object of one member: a leaf under the
reference of its column, a junction under its name. Below a junction, the
members of its expressions stand side by side, so no key may occur twice; only
leaves of one column under an `and` are put together, if their operators
differ.

Key definitions: `Expr.entry`, `Expr.mergeEntry`, `Expr.dump`.
-/
import QueryFilter.Expr.Basic

namespace QueryFilter
namespace Expr

variable {C : Type}

/-- A key and the members of the object under it. -/
abbrev Entry := String × List (String × Json)

/-- The members of a column with the operators of another leaf of it. -/
def mergeOperators (key : String) (done : List (String × Json)) :
    List (String × Json) → Except FilterError (List (String × Json))
  | [] => .ok done
  | (symbol, literal) :: rest =>
    if done.any fun m => m.1 = symbol then .error (.keyCollision (key ++ "." ++ symbol))
    else mergeOperators key (done ++ [(symbol, literal)]) rest

/-- The entries of a junction with one more. -/
def mergeEntry (kind : Junction) (entry : Entry) : List Entry → Except FilterError (List Entry)
  | [] => .ok [entry]
  | (key, members) :: rest =>
    if key = entry.1 then
      if kind = .and ∧ Junction.isName key = false then
        (mergeOperators key members entry.2).map fun merged => (key, merged) :: rest
      else .error (.keyCollision key)
    else (mergeEntry kind entry rest).map ((key, members) :: ·)

mutual

/-- The member that an expression is written as. -/
def entry [ColumnRef C] : Expr C → Except FilterError Entry
  | .leaf column op => .ok (ColumnRef.reference column, op.dump)
  | .junction kind children => do
    let entries ← mergeAll kind [] children
    .ok (kind.name, entries.map fun e => (e.1, .object e.2))

/-- The entries of a junction with those of more expressions. -/
def mergeAll [ColumnRef C] (kind : Junction) (done : List Entry) :
    List (Expr C) → Except FilterError (List Entry)
  | [] => .ok done
  | e :: rest => do
    let next ← entry e
    let done ← mergeEntry kind next done
    mergeAll kind done rest

end

/-- The expression as members of an object. -/
def dump [ColumnRef C] (e : Expr C) : Except FilterError (List (String × Json)) :=
  (entry e).map fun e => [(e.1, .object e.2)]

end Expr
end QueryFilter

/-
# Filters

A filter as the compiler leaves it: a predicate, unless everything is let
through, and modifiers. It can be applied to the query of a backend, and it
can be written back as an input. What is written is the normal form of the
predicate and the modifiers beside it, under keys that may not clash.

Key definitions: `Filter`, `Filter.apply`, `Filter.normalize`, `Filter.write`,
`Filter.toInput`.
-/
import QueryFilter.Expr.Dump
import QueryFilter.Expr.Normalize
import QueryFilter.Expr.Render
import QueryFilter.Input
import QueryFilter.Modifiers.Basic

namespace QueryFilter

/-- A compiled filter. -/
structure Filter (C : Type) where
  /-- The predicate; none lets everything through. -/
  expression : Option (Expr C)
  modifiers : Modifiers C

namespace Filter

variable {C P Q : Type}

instance [BEq C] [DecidableEq C] : BEq (Filter C) :=
  ⟨fun a b => a.expression == b.expression && a.modifiers == b.modifiers⟩

/-- The query with the predicate and then the modifiers applied. -/
def apply (f : Filter C) (b : Backend C P Q) (query : Q) : Q :=
  f.modifiers.apply b (f.expression.elim query fun e => e.apply b query)

/-- The filter with its predicate in normal form, and with none if that is empty. -/
def normalize (f : Filter C) : Filter C :=
  ⟨(f.expression.map Expr.normalize).filter fun e => !e.isEmpty, f.modifiers⟩

/-- The members with more behind them, whose keys have to be new. -/
def addMembers (done : List (String × Json)) :
    List (String × Json) → Except FilterError (List (String × Json))
  | [] => .ok done
  | (key, j) :: rest =>
    if done.any fun m => m.1 = key then .error (.keyCollision key)
    else addMembers (done ++ [(key, j)]) rest

/-- The members of the filter as it is, an empty predicate left out. -/
def writeAsIs [ColumnRef C] (f : Filter C) : Except FilterError (List (String × Json)) :=
  match f.expression.filter fun e => !e.isEmpty with
  | none => addMembers [] f.modifiers.dump
  | some e => do
    let members ← e.dump
    addMembers members f.modifiers.dump

/-- The filter in normal form as members of an object. -/
def write [ColumnRef C] (f : Filter C) : Except FilterError (List (String × Json)) :=
  f.normalize.writeAsIs

/-- The input that the filter in normal form is written as. -/
def toInput [ColumnRef C] (f : Filter C) : Except FilterError FilterInput :=
  f.write.map FilterInput.ofMembers

end Filter
end QueryFilter

/-
# Restriction models

A model is the short form in which restrictions are written by hand: an object
that maps columns to objects that map operator symbols to rules. A rule is
`{"any": true}` or the one value it covers. One policy is given for the whole
model.

A model is read in two steps. First its shape is checked in the order in which
it is written. Then the symbols are looked up, in the order of columns and
symbols, so that the last of two symbols for one comparison counts.

Key definitions: `Permitted.ofJson`, `RestrictionSet.shapeOf`,
`RestrictionSet.ofModel`.
-/
import QueryFilter.Restriction.Basic

namespace QueryFilter

/-- The key that marks a rule for any value. -/
def anyKey : String := "any"

namespace Permitted

/-- The rule of a JSON value. -/
def ofJson : Json → Except FilterError Permitted
  | .object [(key, .bool true)] =>
    if key = anyKey then .ok .any
    else .error (.badModel (some (.object [(key, .bool true)])))
  | .object members => .error (.badModel (some (.object members)))
  | j =>
    match Value.ofJson? j with
    | some v => .ok (.exact v)
    | none => .error (.badModel none)

end Permitted

namespace RestrictionSet

/-- The rules of a column under the symbols they are written with. -/
def rulesOf : List (String × Json) → Except FilterError (List (String × Permitted))
  | [] => .ok []
  | (symbol, j) :: rest => do
    let rule ← Permitted.ofJson j
    let rules ← rulesOf rest
    .ok ((symbol, rule) :: rules)

/-- The columns of a model with their rules. -/
def columnsOf : List (String × Json) →
    Except FilterError (List (String × List (String × Permitted)))
  | [] => .ok []
  | (column, .object members) :: rest => do
    let rules ← rulesOf members
    let columns ← columnsOf rest
    .ok ((column, rules) :: columns)
  | _ :: _ => .error (.badModel none)

/-- A model of the right shape, as columns and rules in the order written. -/
def shapeOf : Json → Except FilterError (List (String × List (String × Permitted)))
  | .object members => columnsOf members
  | _ => .error (.badModel none)

/-- The restriction with a rule for each symbol in turn. -/
def addRules (r : ColumnRestriction) :
    List (String × Permitted) → Except FilterError ColumnRestriction
  | [] => .ok r
  | (symbol, rule) :: rest =>
    match OperatorKind.ofSymbol? symbol with
    | some kind => addRules (r.withRule kind rule) rest
    | none => .error (.unknownOperator symbol)

/-- The set with a restriction for each column in turn. -/
def addColumns (policy : Policy) (set : RestrictionSet) :
    List (String × List (String × Permitted)) → Except FilterError RestrictionSet
  | [] => .ok set
  | (column, rules) :: rest => do
    let r ← addRules (.new column policy) (SortedMap.ofList rules).entries
    addColumns policy (set.insert r) rest

/-- The restrictions of a model under a policy. -/
def ofModel (policy : Policy) (model : Json) : Except FilterError RestrictionSet := do
  let columns ← shapeOf model
  addColumns policy empty (SortedMap.ofList columns).entries

end RestrictionSet
end QueryFilter

/-
# Restrictions

A restriction narrows what a caller may filter a column by. Under the policy
`allow`, only what its rules list may be used; under `deny`, what they list
may not. A rule is for one comparison and covers every value or exactly one. A
column without a restriction is free.

Key definitions: `Permitted`, `ColumnRestriction`, `RestrictionSet`,
`ColumnRestriction.isAllowed`, `RestrictionSet.isAllowed`,
`RestrictionSet.check`.
Key theorems: `RestrictionSet.check_eq_ok_iff`.
-/
import QueryFilter.Operator
import QueryFilter.SortedMap

namespace QueryFilter

/-- The values that a rule covers. -/
inductive Permitted where
  | any
  /-- This value, of its own kind. -/
  | exact (value : Value)

namespace Permitted

/-- Whether a rule covers a value. -/
def covers : Permitted → Value → Bool
  | .any, _ => true
  | .exact literal, value => literal == value

end Permitted

/-- How the rules of a restriction are read. -/
inductive Policy where
  | allow
  | deny
  deriving DecidableEq, Repr

/-- The rules for one column. -/
structure ColumnRestriction where
  column : String
  policy : Policy
  rules : SortedMap OperatorKind Permitted

namespace ColumnRestriction

/-- A restriction without rules. -/
def new (column : String) (policy : Policy) : ColumnRestriction :=
  ⟨column, policy, SortedMap.empty⟩

/-- The restriction with a rule for a comparison, in place of an earlier one. -/
def withRule (r : ColumnRestriction) (kind : OperatorKind) (rule : Permitted) :
    ColumnRestriction :=
  ⟨r.column, r.policy, r.rules.insert kind rule⟩

/-- Whether a rule covers the operator. -/
def lists (r : ColumnRestriction) (op : Operator) : Bool :=
  match r.rules.get? op.kind with
  | some rule => rule.covers op.value
  | none => false

/-- Whether the restriction lets the operator through. -/
def isAllowed (r : ColumnRestriction) (op : Operator) : Bool :=
  match r.policy with
  | .allow => r.lists op
  | .deny => !r.lists op

end ColumnRestriction

/-- Restrictions by the names of their columns. -/
structure RestrictionSet where
  columns : SortedMap String ColumnRestriction

namespace RestrictionSet

def empty : RestrictionSet := ⟨SortedMap.empty⟩

/-- The set with a restriction, in place of an earlier one for its column. -/
def insert (set : RestrictionSet) (r : ColumnRestriction) : RestrictionSet :=
  ⟨set.columns.insert r.column r⟩

def isEmpty (set : RestrictionSet) : Bool := set.columns.isEmpty

/-- Whether the column of this name may be filtered by the operator. -/
def isAllowed (set : RestrictionSet) (column : String) (op : Operator) : Bool :=
  match set.columns.get? column with
  | some r => r.isAllowed op
  | none => true

/-- Refuses an operator that is not allowed on the column of this name. -/
def check (set : RestrictionSet) (column : String) (op : Operator) : Except FilterError Unit :=
  if set.isAllowed column op then .ok () else .error (.notAllowed column op.kind)

theorem check_eq_ok_iff {set : RestrictionSet} {column : String} {op : Operator} :
    set.check column op = .ok () ↔ set.isAllowed column op = true := by
  unfold check
  split <;> simp_all

theorem isAllowed_empty (column : String) (op : Operator) :
    empty.isAllowed column op = true := rfl

end RestrictionSet
end QueryFilter

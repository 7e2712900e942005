/-
# Restrictions as JSON

The form in which restrictions are kept: each with its column, its policy and
its rules under the written symbols, and a set of them under the names of
their columns. Reading is stricter than a model is about symbols and more
lenient about order: only the written symbols count, the policy may be left
out, and the key of a restriction in a set need not be its column.

Key definitions: `Permitted.toJson`, `RestrictionSet.toJson`,
`RestrictionSet.parse?`, `ColumnRestriction.parse?`.
-/
import QueryFilter.Restriction.Model
import QueryFilter.Json.Reader
import QueryFilter.Json.Record

namespace QueryFilter

/-! ### Writing -/

namespace Permitted

/-- The JSON of a rule: a mark for any value, or the value covered. -/
def toJson : Permitted → Json
  | .any => .object [(anyKey, .bool true)]
  | .exact value => value.toJson

end Permitted

namespace Policy

/-- The word of a policy. -/
def name : Policy → String
  | .allow => "allow"
  | .deny => "deny"

/-- The policy of a word. -/
def ofName? (s : String) : Option Policy :=
  [Policy.allow, .deny].find? fun p => p.name = s

end Policy

/-- The JSON of a restriction. -/
def ColumnRestriction.toJson (r : ColumnRestriction) : Json :=
  .object [("column", .string r.column), ("policy", .string r.policy.name),
    ("rules", .object (r.rules.entries.map fun e => (e.1.symbol, e.2.toJson)))]

/-- The JSON of a set of restrictions. -/
def RestrictionSet.toJson (set : RestrictionSet) : Json :=
  .object [("columns", .object (set.columns.entries.map fun e => (e.1, e.2.toJson)))]

/-! ### Reading -/

/-- The rule of a document that nests at most `levels` deep. -/
def Permitted.ofDocument? (levels : Nat) (d : Json.Document) : Option Permitted :=
  (d.value? levels).bind fun j => (Permitted.ofJson j).toOption

/-- The policy of a document; the policy is `allow` where there is no document. -/
def Policy.ofDocument? : Option Json.Document → Option Policy
  | none => some .allow
  | some d => d.variant?.bind Policy.ofName?

/-- The restriction of a document that nests at most `levels` deep. -/
def ColumnRestriction.ofDocument? (levels : Nat) (d : Json.Document) : Option ColumnRestriction :=
  match d.fields? ["column", "policy", "rules"] with
  | some [some column, policy, some rules] => do
    let column ← column.text?
    let policy ← Policy.ofDocument? policy
    let rules ← rules.entries? fun symbol item => do
      let kind ← OperatorKind.ofWritten? symbol
      let rule ← Permitted.ofDocument? (levels - 2) item
      some (kind, rule)
    some ⟨column, policy, SortedMap.ofList rules⟩
  | _ => none

/-- The set of restrictions of a document that nests at most `levels` deep. -/
def RestrictionSet.ofDocument? (levels : Nat) (d : Json.Document) : Option RestrictionSet :=
  match d.fields? ["columns"] with
  | some [some columns] => do
    let columns ← columns.entries? fun key item =>
      (ColumnRestriction.ofDocument? (levels - 2) item).map fun r => (key, r)
    some ⟨SortedMap.ofList columns⟩
  | _ => none

/-- The restriction of a JSON text. -/
def ColumnRestriction.parse? (text : String) : Option ColumnRestriction :=
  (Json.Document.parse? text).bind (ofDocument? Json.Document.maxLevels)

/-- The set of restrictions of a JSON text. -/
def RestrictionSet.parse? (text : String) : Option RestrictionSet :=
  (Json.Document.parse? text).bind (ofDocument? Json.Document.maxLevels)

end QueryFilter

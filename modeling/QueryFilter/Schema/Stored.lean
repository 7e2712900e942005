/-
# Catalogs and selections as JSON

A catalog is an object with its tables under their keys, a selection one with
its columns in a list. The key of a table that is read stays what it is,
whatever the table calls itself.

Key definitions: `Catalog.toJson`, `Catalog.parse?`, `Selection.toJson`.
-/
import QueryFilter.Schema.Basic
import QueryFilter.Json.Reader
import QueryFilter.Json.Record

namespace QueryFilter
namespace Table

def toJson (t : Table) : Json :=
  .object [("name", .string t.name), ("columns", .array (t.columns.map .string))]

/-- The table of a document. -/
def ofDocument? (d : Json.Document) : Option Table :=
  match d.fields? ["name", "columns"] with
  | some [some name, some columns] => do
    let name ← name.text?
    let items ← columns.items?
    let columns ← items.mapM Json.Document.text?
    some ⟨name, columns⟩
  | _ => none

end Table

namespace Catalog

def toJson (c : Catalog) : Json :=
  .object [("tables", .object (c.tables.entries.map fun e => (e.1, e.2.toJson)))]

/-- The catalog of a document. -/
def ofDocument? (d : Json.Document) : Option Catalog :=
  match d.fields? ["tables"] with
  | some [some tables] => do
    let entries ← tables.entries? fun key item => (Table.ofDocument? item).map fun t => (key, t)
    some ⟨SortedMap.ofList entries⟩
  | _ => none

/-- The catalog of a JSON text. -/
def parse? (text : String) : Option Catalog :=
  (Json.Document.parse? text).bind ofDocument?

end Catalog

/-- The JSON of a column. -/
def Column.toJson (c : Column) : Json :=
  .object [("table", .string c.table), ("name", .string c.name),
    ("label", c.label.elim .null .string), ("qualified", .bool c.qualified)]

/-- The JSON of a selection. -/
def Selection.toJson (s : Selection) : Json :=
  .object [("columns", .array (s.columns.map Column.toJson))]

end QueryFilter

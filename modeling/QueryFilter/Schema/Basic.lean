/-
# Columns and where they are looked up

A filter refers to columns by text. A reference `table.column` is looked up in
the catalog of tables; any other reference, and one that the catalog does not
have, must be an output column of the query. Labels of output columns win over
their names.

A column knows the name it is filtered by and the reference that is written
for it; the compiler needs nothing else of it, so it works for any type of
columns with these two (`ColumnRef`).

Key definitions: `ColumnRef`, `Column`, `Table`, `Catalog`, `Selection`,
`Resolver`, `Resolver.resolve`.
-/
import QueryFilter.Error
import QueryFilter.SortedMap
import QueryFilter.Text.Cut

namespace QueryFilter

/-- What the compiler needs to know of a column. -/
class ColumnRef (C : Type) where
  /-- The name a column is addressed by in paths and restrictions. -/
  name : C → String
  /-- The reference that is written for a column. -/
  reference : C → String

/-- A column of a table, with a label if the output gives it one. -/
structure Column where
  table : String
  name : String
  label : Option String
  /-- Whether the column was found through its table. -/
  qualified : Bool
  deriving DecidableEq, Repr

namespace Column

/-- A column without a label, not found through its table. -/
def plain (table name : String) : Column := ⟨table, name, none, false⟩

/-- The column as one found through its table. -/
def qualify (c : Column) : Column := ⟨c.table, c.name, c.label, true⟩

/-- The table and the name, with a point between them. -/
def qualifiedName (c : Column) : String := c.table ++ "." ++ c.name

/-- The label, or the name where there is none. -/
def displayName (c : Column) : String := c.label.getD c.name

/-- The label where there is one, and else the name, with the table if the
column was found through it. -/
def reference (c : Column) : String :=
  match c.label with
  | some label => label
  | none => if c.qualified then c.qualifiedName else c.name

instance : ColumnRef Column := ⟨displayName, reference⟩

end Column

/-- A table: its name and the names of its columns. -/
structure Table where
  name : String
  columns : List String
  deriving DecidableEq, Repr

namespace Table

/-- The column of a name. -/
def column? (t : Table) (name : String) : Option Column :=
  (t.columns.find? fun c => c = name).map (Column.plain t.name)

def allColumns (t : Table) : List Column := t.columns.map (Column.plain t.name)

end Table

/-- The known tables. -/
structure Catalog where
  tables : SortedMap String Table

namespace Catalog

def empty : Catalog := ⟨SortedMap.empty⟩

/-- The catalog with one more table, in place of an earlier one of its name. -/
def addTable (c : Catalog) (t : Table) : Catalog := ⟨c.tables.insert t.name t⟩

/-- The catalog of a list of tables, of which the last of a name counts. -/
def ofTables (tables : List Table) : Catalog := tables.foldl addTable empty

def table? (c : Catalog) (name : String) : Option Table := c.tables.get? name

/-- A column looked up through its table. -/
def column? (c : Catalog) (table column : String) : Option Column :=
  ((c.table? table).bind fun t => t.column? column).map Column.qualify

end Catalog

/-- The output columns of a query, in their order. -/
structure Selection where
  columns : List Column

namespace Selection

/-- The output column of a label, or else of a name. -/
def column? (s : Selection) (name : String) : Option Column :=
  (s.columns.find? fun c => c.label = some name).orElse fun _ =>
    s.columns.find? fun c => c.name = name

end Selection

/-- The two places where a reference is looked up. -/
structure Resolver (C : Type) where
  /-- A column by its table and its name. -/
  registered : String → String → Option C
  /-- An output column by its name or label. -/
  selected : String → Option C

namespace Resolver

variable {C : Type}

/-- The column that a reference of the form `table.column` has in its table. -/
def throughTable? (r : Resolver C) (reference : String) : Option C :=
  (Text.cut? '.' reference).bind fun p => r.registered p.1 p.2

/-- The column of a reference: through its table, or else among the output
columns. -/
def resolve (r : Resolver C) (reference : String) : Except FilterError C :=
  match (r.throughTable? reference).orElse fun _ => r.selected reference with
  | some column => .ok column
  | none => .error (.unresolvedColumn reference)

/-- Looking up in a catalog and a selection. -/
def ofCatalog (catalog : Catalog) (selection : Selection) : Resolver Column :=
  ⟨catalog.column?, selection.column?⟩

end Resolver
end QueryFilter

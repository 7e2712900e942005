/-
# TOML documents

A TOML file is a list of statements: headers that open a table, and keys that
are given values in the table opened last. `Toml.Table.ofStatements?` puts the
statements together. A key may be given once and a table opened once; what may
still be extended depends on how a table came to be, which is its form.

Key definitions: `Toml.Item`, `Toml.Form`, `Toml.Statement`,
`Toml.Table.ofStatements?`.
-/
import QueryFilter.Toml.Moment

namespace QueryFilter
namespace Toml

/-- How a table came to be. -/
inductive Form where
  /-- By a header of its own. -/
  | opened
  /-- By a header of a table inside it. -/
  | implied
  /-- By a key with points. -/
  | dotted
  /-- By a value in braces, to which nothing can be added. -/
  | inline
  deriving DecidableEq, Repr

/-- What a key is bound to. -/
inductive Item where
  | string (value : String)
  | integer (value : Int)
  | float (value : Binary64)
  | boolean (value : Bool)
  | moment (value : Moment)
  | array (items : List Item)
  | table (form : Form) (entries : List (String × Item))
  /-- Tables under one key, each opened by a header of its own. -/
  | tables (items : List (List (String × Item)))

/-- The entries of a table. -/
abbrev Table := List (String × Item)

/-- A key as written: names with points between them. -/
abbrev Key := List String

/-- A statement of a document. -/
inductive Statement where
  /-- Opens a table. -/
  | header (key : Key)
  /-- Opens one more of the tables under a key. -/
  | element (key : Key)
  /-- Binds a key in the table that is open. -/
  | assign (key : Key) (item : Item)

namespace Table

/-- The item under a name. -/
def get? (name : String) : Table → Option Item
  | [] => none
  | (n, item) :: rest => if n = name then some item else get? name rest

/-- The table with the item under a name that is there replaced. -/
def replace (name : String) (item : Item) : Table → Table
  | [] => []
  | (n, i) :: rest => if n = name then (n, item) :: rest else (n, i) :: replace name item rest

/-- The table with `f` done to the table at a path of names, tables on the way
implied where they are missing. -/
def within (f : Table → Option Table) : Key → Table → Option Table
  | [], t => f t
  | name :: rest, t =>
    match t.get? name with
    | none => (within f rest []).map fun sub => t ++ [(name, .table .implied sub)]
    | some (.table .inline _) => none
    | some (.table form sub) =>
      (within f rest sub).map fun sub => t.replace name (.table form sub)
    | some (.tables items) =>
      match items.getLast? with
      | none => none
      | some last =>
        (within f rest last).map fun last => t.replace name (.tables (items.dropLast ++ [last]))
    | some _ => none

/-- The table with a table opened in it. -/
def openTable (name : String) (t : Table) : Option Table :=
  match t.get? name with
  | none => some (t ++ [(name, .table .opened [])])
  | some (.table .implied sub) => some (t.replace name (.table .opened sub))
  | some _ => none

/-- The table with one more of the tables under a name opened in it. -/
def openElement (name : String) (t : Table) : Option Table :=
  match t.get? name with
  | none => some (t ++ [(name, .tables [[]])])
  | some (.tables items) => some (t.replace name (.tables (items ++ [[]])))
  | some _ => none

/-- The table with a name bound, which has to be new. -/
def bindName (name : String) (item : Item) (t : Table) : Option Table :=
  match t.get? name with
  | none => some (t ++ [(name, item)])
  | some _ => none

/-- The table with a key bound below it. Tables on the way come from keys with
points, are only implied, or are the last of several under one key; the last
table on the way comes from a key with points. -/
def assign (item : Item) : Key → Table → Option Table
  | [], _ => none
  | [name], t => bindName name item t
  | name :: next :: rest, t =>
    match t.get? name with
    | none => (assign item (next :: rest) []).map fun sub => t ++ [(name, .table .dotted sub)]
    | some (.table .dotted sub) =>
      (assign item (next :: rest) sub).map fun sub => t.replace name (.table .dotted sub)
    | some (.table .implied sub) =>
      if rest.isEmpty then none
      else (assign item (next :: rest) sub).map fun sub => t.replace name (.table .implied sub)
    | some (.tables items) =>
      match rest, items.getLast? with
      | [], _ => none
      | _, none => none
      | _, some last =>
        (assign item (next :: rest) last).map fun last =>
          t.replace name (.tables (items.dropLast ++ [last]))
    | some _ => none

/-- The table with keys bound one after the other. -/
def assignAll : List (Key × Item) → Table → Option Table
  | [], t => some t
  | (key, item) :: rest, t => (assign item key t).bind (assignAll rest)

/-- The table with statements carried out, `opened` being the path of the table
that is open. -/
def carryOut (opened : Key) : List Statement → Table → Option Table
  | [], t => some t
  | .assign key item :: rest, t =>
    (within (assign item key) opened t).bind (carryOut opened rest)
  | .header key :: rest, t =>
    match key.getLast? with
    | none => none
    | some last => (within (openTable last) key.dropLast t).bind (carryOut key rest)
  | .element key :: rest, t =>
    match key.getLast? with
    | none => none
    | some last => (within (openElement last) key.dropLast t).bind (carryOut key rest)

/-- The table that the statements of a document make up. -/
def ofStatements? (statements : List Statement) : Option Table := carryOut [] statements []

end Table
end Toml
end QueryFilter

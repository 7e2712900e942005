/-
# Documents of plain tables

A document that a program writes opens its tables one after the other and binds the keys of
each below its header, every name without points. If no two tables and no two keys of one
table have the same name, carrying out the statements gives these tables, with their entries
in the order of the text (`Toml.Table.ofStatements?_document`).

Key definitions: `Toml.Table.block`, `Toml.Table.document`.
Key theorems: `Toml.Table.carryOut_assigns`, `Toml.Table.ofStatements?_document`.
-/
import QueryFilter.Proofs.Lists
import QueryFilter.Toml.Basic

namespace QueryFilter
namespace Toml
namespace Table

variable {name : String} {item new : Item} {t entries : Table} {opened : Key}
  {more : List Statement} {tables : List (String × Table)}

/-- The statements that open a table and bind its entries. -/
def block (name : String) (entries : Table) : List Statement :=
  .header [name] :: entries.map fun entry => .assign [entry.1] entry.2

/-- The statements of tables one after the other. -/
def document (tables : List (String × Table)) : List Statement :=
  tables.flatMap fun table => block table.1 table.2

/-! ### Names that are new -/

theorem get?_eq_none : ∀ {t : Table}, name ∉ t.map Prod.fst → t.get? name = none
  | [], _ => rfl
  | (n, _) :: t, h => by
    rw [List.map_cons, List.mem_cons, not_or] at h
    rw [get?, if_neg (Ne.symm h.1), get?_eq_none h.2]

theorem get?_append_singleton : ∀ {t : Table}, name ∉ t.map Prod.fst →
    get? name (t ++ [(name, item)]) = some item
  | [], _ => by rw [List.nil_append, get?, if_pos rfl]
  | (n, _) :: t, h => by
    rw [List.map_cons, List.mem_cons, not_or] at h
    rw [List.cons_append, get?, if_neg (Ne.symm h.1), get?_append_singleton h.2]

theorem replace_append_singleton : ∀ {t : Table}, name ∉ t.map Prod.fst →
    replace name new (t ++ [(name, item)]) = t ++ [(name, new)]
  | [], _ => by rw [List.nil_append, replace, if_pos rfl, List.nil_append]
  | (n, _) :: t, h => by
    rw [List.map_cons, List.mem_cons, not_or] at h
    rw [List.cons_append, replace, if_neg (Ne.symm h.1), replace_append_singleton h.2,
      List.cons_append]

theorem openTable_of_notMem (h : name ∉ t.map Prod.fst) :
    openTable name t = some (t ++ [(name, .table .opened [])]) := by
  rw [openTable, get?_eq_none h]

theorem bindName_of_notMem (h : name ∉ t.map Prod.fst) :
    bindName name item t = some (t ++ [(name, item)]) := by
  rw [bindName, get?_eq_none h]

/-! ### Statements one after the other -/

/-- Keys with new names are bound in the table that was opened last, in their order. -/
theorem carryOut_assigns (hname : name ∉ t.map Prod.fst) : ∀ {entries bound : Table},
    ((bound ++ entries).map Prod.fst).Nodup →
      carryOut [name] (entries.map (fun entry => .assign [entry.1] entry.2) ++ more)
          (t ++ [(name, .table .opened bound)]) =
        carryOut [name] more (t ++ [(name, .table .opened (bound ++ entries))])
  | [], bound, _ => by rw [List.map_nil, List.nil_append, List.append_nil]
  | (key, item) :: entries, bound, hnodup => by
    have hnew : key ∉ bound.map Prod.fst := by
      rw [List.map_append, List.map_cons] at hnodup
      exact List.notMem_of_nodup_append_cons hnodup
    have hbind : within (assign item [key]) [name] (t ++ [(name, .table .opened bound)]) =
        some (t ++ [(name, .table .opened (bound ++ [(key, item)]))]) := by
      rw [within, get?_append_singleton hname]
      simp only [within, assign, bindName_of_notMem hnew, Option.map_some,
        replace_append_singleton hname]
    have hmore : bound ++ (key, item) :: entries = bound ++ [(key, item)] ++ entries :=
      List.append_cons bound (key, item) entries
    rw [hmore] at hnodup ⊢
    rw [List.map_cons, List.cons_append, carryOut, hbind, Option.bind_some,
      carryOut_assigns hname hnodup]

/-- A table with a new name is opened behind the others and gets its entries. -/
theorem carryOut_block (hname : name ∉ t.map Prod.fst)
    (hentries : (entries.map Prod.fst).Nodup) :
    carryOut opened (block name entries ++ more) t =
      carryOut [name] more (t ++ [(name, .table .opened entries)]) := by
  have hopen : within (openTable name) ([name] : Key).dropLast t =
      some (t ++ [(name, .table .opened [])]) := openTable_of_notMem hname
  rw [block, List.cons_append, carryOut]
  simp only [List.getLast?_singleton, hopen, Option.bind_some]
  exact carryOut_assigns hname hentries

/-- **Documents.** Tables with different names, each with different keys, are what the
statements that write them down make up. -/
theorem ofStatements?_document (hnames : (tables.map Prod.fst).Nodup)
    (hentries : ∀ table ∈ tables, (table.2.map Prod.fst).Nodup) :
    ofStatements? (document tables) =
      some (tables.map fun table => (table.1, .table .opened table.2)) := by
  -- the tables so far are those in front, whichever of them is open
  suffices hall : ∀ (tables : List (String × Table)) (t : Table) (opened : Key),
      (t.map Prod.fst ++ tables.map Prod.fst).Nodup →
      (∀ table ∈ tables, (table.2.map Prod.fst).Nodup) →
      carryOut opened (document tables) t =
        some (t ++ tables.map fun table => (table.1, .table .opened table.2)) from
    hall tables [] [] hnames hentries
  intro tables
  induction tables with
  | nil =>
    intro t opened _ _
    rw [document, List.flatMap_nil, carryOut, List.map_nil, List.append_nil]
  | cons table tables ih =>
    intro t opened hnodup hentries
    obtain ⟨name, entries⟩ := table
    obtain ⟨hfirst, hrest⟩ := List.forall_mem_cons.mp hentries
    have hname : name ∉ t.map Prod.fst := by
      rw [List.map_cons] at hnodup
      exact List.notMem_of_nodup_append_cons hnodup
    have hmore : (t ++ [(name, Item.table .opened entries)]).map Prod.fst ++
        tables.map Prod.fst = t.map Prod.fst ++ ((name, entries) :: tables).map Prod.fst := by
      simp
    have hdocument : document ((name, entries) :: tables) =
        block name entries ++ document tables := List.flatMap_cons
    rw [hdocument, carryOut_block hname hfirst, ih _ _ (hmore ▸ hnodup) hrest,
      List.append_assoc, List.map_cons, List.singleton_append]

end Table
end Toml
end QueryFilter

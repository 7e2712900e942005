/-
# How a reference finds its column

A reference finds a column in one of three ways: it is the name of a table and
the name of a column with a point between them, or the label of an output
column, or the name of one (`Resolver.Finds`). Nothing else is found
(`Resolver.resolve_finds`).

The reference that is written for a column is one that finds it. Where tables are
known under their own names and the output columns are plain, it is the very
reference that the column was found by (`Resolver.reference_of_resolve`). Where output
columns have labels it may be the label of a column that was found by its name. It finds
the column too, if no label stands for anything else (`Resolver.resolve_reference`).

Key definitions: `Resolver.Finds`, `Catalog.NamesKept`, `Selection.Plain`,
`Selection.Unambiguous`.
Key theorems: `Resolver.resolve_finds`, `Catalog.namesKept_ofTables`,
`Resolver.reference_of_resolve`, `Resolver.resolve_reference`.
-/
import QueryFilter.Proofs.SortedMap
import QueryFilter.Schema.Basic

namespace QueryFilter

namespace Text

/-- A text that is cut is its two sides with the separator between them. -/
theorem cut?_eq_some {sep : Char} {s before after : String} (h : cut? sep s = some (before, after)) :
    s = before ++ String.singleton sep ++ after := by
  obtain ⟨⟨front, back⟩, hcut, hpair⟩ := Option.map_eq_some_iff.mp h
  obtain ⟨rfl, rfl⟩ := Prod.mk.inj hpair
  obtain ⟨hs, -⟩ := cutFirst_eq_some sep _ _ _ hcut
  rw [← String.toList_inj]
  simp [hs]

end Text

/-- Whether every table is known under its own name. -/
def Catalog.NamesKept (catalog : Catalog) : Prop :=
  ∀ name t, catalog.table? name = some t → t.name = name

/-- Whether the output columns have no labels and were not found through their tables. -/
def Selection.Plain (selection : Selection) : Prop :=
  ∀ c ∈ selection.columns, c.label = none ∧ c.qualified = false

/-- Whether each label stands for one output column and nothing else, and no output column
without a label was found through its table. -/
structure Selection.Unambiguous (selection : Selection) (catalog : Catalog) : Prop where
  plain : ∀ c ∈ selection.columns, c.label = none → c.qualified = false
  one : ∀ c ∈ selection.columns, ∀ c' ∈ selection.columns, ∀ label, c.label = some label →
    c'.label = some label → c = c'
  /-- No label is the reference of a column in its table. -/
  apart : ∀ c ∈ selection.columns, ∀ label, c.label = some label →
    (Resolver.ofCatalog catalog selection).throughTable? label = none

namespace Catalog

theorem namesKept_empty : empty.NamesKept := fun _ _ h => by cases h

theorem NamesKept.addTable {catalog : Catalog} (h : catalog.NamesKept) (t : Table) :
    (catalog.addTable t).NamesKept := by
  intro name t' ht
  rw [table?, Catalog.addTable, SortedMap.get?_insert_ite] at ht
  split at ht
  · rename_i hname
    cases ht
    exact hname.symm
  · exact h name t' ht

/-- A catalog that is built table by table keeps their names. -/
theorem namesKept_ofTables (tables : List Table) : (ofTables tables).NamesKept := by
  have hfold : ∀ (tables : List Table) {catalog : Catalog}, catalog.NamesKept →
      (tables.foldl Catalog.addTable catalog).NamesKept := by
    intro tables
    induction tables with
    | nil => exact fun h => h
    | cons t rest ih => exact fun h => ih (h.addTable t)
  exact hfold tables namesKept_empty

end Catalog

namespace Resolver

/-- The ways in which a reference finds a column. -/
inductive Finds (catalog : Catalog) (selection : Selection) : String → Column → Prop
  | throughTable {table name : String} {t : Table} (ht : catalog.table? table = some t)
    (hname : name ∈ t.columns) :
    Finds catalog selection (table ++ "." ++ name) (Column.plain t.name name).qualify
  | byLabel {label : String} {c : Column} (hc : c ∈ selection.columns) (hl : c.label = some label) :
    Finds catalog selection label c
  | byName {c : Column} (hc : c ∈ selection.columns) : Finds catalog selection c.name c

variable {catalog : Catalog} {selection : Selection} {reference : String} {c : Column}

/-- **Three ways.** What a reference resolves to is found in one of them. -/
theorem resolve_finds (h : (ofCatalog catalog selection).resolve reference = .ok c) :
    Finds catalog selection reference c := by
  rw [resolve] at h
  split at h
  · rename_i column hfound
    cases h
    rw [Option.orElse_eq_or, Option.or_eq_some_iff] at hfound
    rcases hfound with hthrough | ⟨-, hselected⟩
    · obtain ⟨⟨table, name⟩, hcut, hcolumn⟩ := Option.bind_eq_some_iff.mp hthrough
      obtain ⟨plain, hplain, rfl⟩ := Option.map_eq_some_iff.mp hcolumn
      obtain ⟨t, ht, hplain⟩ := Option.bind_eq_some_iff.mp hplain
      obtain ⟨name', hfind, rfl⟩ := Option.map_eq_some_iff.mp hplain
      have hname : name' = name := by simpa using List.find?_some hfind
      rw [Text.cut?_eq_some hcut]
      exact hname ▸ .throughTable ht (List.mem_of_find?_eq_some hfind)
    · change (selection.column? reference) = some c at hselected
      rw [Selection.column?, Option.orElse_eq_or, Option.or_eq_some_iff] at hselected
      rcases hselected with hlabel | ⟨-, hname⟩
      · exact .byLabel (List.mem_of_find?_eq_some hlabel) (by simpa using List.find?_some hlabel)
      · have hreference : c.name = reference := by simpa using List.find?_some hname
        exact hreference ▸ .byName (List.mem_of_find?_eq_some hname)
  · cases h

/-- What is written for a column that is found is what it was found by, or its label. -/
theorem Finds.reference_eq_or (hcatalog : catalog.NamesKept)
    (hplain : ∀ c ∈ selection.columns, c.label = none → c.qualified = false)
    (h : Finds catalog selection reference c) :
    ColumnRef.reference c = reference ∨ c ∈ selection.columns ∧ c.label = some c.reference := by
  cases h with
  | @throughTable table name t ht hname =>
    left
    change t.name ++ "." ++ name = table ++ "." ++ name
    rw [hcatalog table t ht]
  | byLabel hc hl =>
    left
    change c.reference = reference
    rw [Column.reference, hl]
  | byName hc =>
    cases hl : c.label with
    | some label =>
      right
      rw [Column.reference, hl]
      exact ⟨hc, rfl⟩
    | none =>
      left
      change c.reference = c.name
      simp [Column.reference, hl, hplain c hc hl]

/-- **The same reference.** It is written again for the column that it found. -/
theorem reference_of_resolve (hcatalog : catalog.NamesKept) (hselection : selection.Plain)
    (h : (ofCatalog catalog selection).resolve reference = .ok c) :
    ColumnRef.reference c = reference := by
  have hplain : ∀ c ∈ selection.columns, c.label = none → c.qualified = false := fun c hc _ =>
    (hselection c hc).2
  rcases (resolve_finds h).reference_eq_or hcatalog hplain with href | ⟨hc, hl⟩
  · exact href
  · rw [(hselection c hc).1] at hl
    cases hl

/-- A label that stands for one column finds it. -/
theorem resolve_label (hs : selection.Unambiguous catalog) (hc : c ∈ selection.columns)
    {label : String} (hl : c.label = some label) :
    (ofCatalog catalog selection).resolve label = .ok c := by
  have hfind : selection.columns.find? (fun c => c.label = some label) = some c := by
    cases hf : selection.columns.find? fun c => c.label = some label with
    | none => exact absurd hl (by simpa using List.find?_eq_none.mp hf c hc)
    | some c' =>
      have hl' : c'.label = some label := by simpa using List.find?_some hf
      have hc' : c' ∈ selection.columns := List.mem_of_find?_eq_some hf
      rw [hs.one c hc c' hc' label hl hl']
  have hselected : (ofCatalog catalog selection).selected label = some c := by
    change selection.column? label = some c
    rw [Selection.column?, hfind]
    rfl
  rw [resolve, hs.apart c hc label hl, Option.orElse_eq_or, Option.none_or, hselected]

/-- **Found again.** The reference that is written for a column that was found finds it. -/
theorem resolve_reference (hcatalog : catalog.NamesKept) (hs : selection.Unambiguous catalog)
    (h : (ofCatalog catalog selection).resolve reference = .ok c) :
    (ofCatalog catalog selection).resolve (ColumnRef.reference c) = .ok c := by
  rcases (resolve_finds h).reference_eq_or hcatalog hs.plain with href | ⟨hc, hl⟩
  · rw [href, h]
  · exact resolve_label hs hc hl

end Resolver
end QueryFilter

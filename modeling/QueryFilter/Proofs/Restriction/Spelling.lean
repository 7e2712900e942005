/-
# One column by several names

A column of a table can be reached through its table and through output columns,
and an output column may give it a label. Restrictions know a column by its label,
and by its name where it has none. So two ways to one column are restricted alike
exactly if they lead to one such name (`RestrictionSet.alike_iff`). A reference
through the table always leads to the column's name, and so does every other one
unless an output column gives the column a label of its own. Where the names are one,
an input compiles as it does with the one reference in place of the other, up to the
label and the way the column was found (`Resolver.check_spellings`). Where they are not,
a restriction by name can be passed by the label (`Resolver.check_relabelled`).

Key definitions: `Selection.Relabels`, `Column.origin`, `RestrictionSet.refusing`.
Key theorems: `Resolver.name_of_resolve`, `RestrictionSet.alike_iff`,
`Resolver.check_spellings`.
-/
import QueryFilter.Proofs.Compiler.Gate
import QueryFilter.Proofs.Compiler.Respelling
import QueryFilter.Proofs.Schema.Resolution

namespace QueryFilter

/-- Whether an output column gives a column of a table a label that is not its name. -/
def Selection.Relabels (selection : Selection) (table name : String) : Prop :=
  ∃ c ∈ selection.columns, c.table = table ∧ c.name = name ∧
    ∃ label, c.label = some label ∧ label ≠ name

/-- The table and the name of a column, without a label and however it was found. -/
def Column.origin (c : Column) : String × String := (c.table, c.name)

/-! ### Telling names apart -/

namespace RestrictionSet

/-- The restrictions that refuse a comparison of the column of a name, and nothing else. -/
def refusing (column : String) (kind : OperatorKind) : RestrictionSet :=
  empty.insert ((ColumnRestriction.new column .deny).withRule kind .any)

theorem isAllowed_refusing {column other : String} {kind : OperatorKind} {op : Operator} :
    (refusing column kind).isAllowed other op = true ↔ ¬ (other = column ∧ op.kind = kind) := by
  have hrule : ((ColumnRestriction.new column .deny).withRule kind .any).lists op = true ↔
      op.kind = kind := by
    rw [ColumnRestriction.lists, ColumnRestriction.withRule, SortedMap.get?_insert_ite]
    by_cases hkind : op.kind = kind
    · simp [hkind, Permitted.covers]
    · simp [hkind, ColumnRestriction.new, SortedMap.get?_empty]
  have hset : (refusing column kind).columns.get? other =
      if other = column then some ((ColumnRestriction.new column .deny).withRule kind .any)
      else none := by
    rw [refusing, insert, SortedMap.get?_insert_ite]
    rfl
  have hpolicy : ((ColumnRestriction.new column .deny).withRule kind .any).policy = .deny := rfl
  rw [isAllowed, hset]
  by_cases hcolumn : other = column
  · rw [if_pos hcolumn]
    simp [ColumnRestriction.isAllowed, hpolicy, hcolumn, ← hrule]
  · simp [hcolumn]

/-- Two columns pass the same checks exactly if they go by one name. -/
theorem alike_iff {C : Type} [ColumnRef C] {c c' : C} :
    (∀ (set : RestrictionSet) (op : Operator),
      set.check (ColumnRef.name c) op = .ok () ↔ set.check (ColumnRef.name c') op = .ok ()) ↔
      ColumnRef.name c = ColumnRef.name c' := by
  constructor
  · intro h
    by_contra hne
    have hop : OperatorKind.eq.expectsSequence = true → Value.null.isArray = true := by decide
    have hother := (h (refusing (ColumnRef.name c) .eq) ⟨.eq, .null, hop⟩).mpr
    rw [check_eq_ok_iff, check_eq_ok_iff, isAllowed_refusing, isAllowed_refusing] at hother
    exact hother (fun hboth => hne hboth.1.symm) ⟨rfl, rfl⟩
  · intro h set op
    rw [h]

end RestrictionSet

/-! ### The name that a reference leads to -/

namespace Resolver

variable {catalog : Catalog} {selection : Selection} {reference reference' : String}
  {c c' : Column}

/-- A reference leads to the name of its column, unless it finds an output column
that has a label. -/
theorem name_of_resolve (h : (ofCatalog catalog selection).resolve reference = .ok c) :
    ColumnRef.name c = c.name ∨ c ∈ selection.columns ∧ c.label = some (ColumnRef.name c) := by
  have hname : ∀ c : Column, ColumnRef.name c = c.name ∨ c.label = some (ColumnRef.name c) := by
    intro c
    change c.displayName = c.name ∨ c.label = some c.displayName
    unfold Column.displayName
    cases c.label with
    | none => exact Or.inl rfl
    | some label => exact Or.inr rfl
  cases resolve_finds h with
  | throughTable ht hname => exact Or.inl rfl
  | byLabel hc hl => exact (hname c).imp_right fun hlabel => ⟨hc, hlabel⟩
  | byName hc => exact (hname c).imp_right fun hlabel => ⟨hc, hlabel⟩

theorem name_of_not_relabels (h : (ofCatalog catalog selection).resolve reference = .ok c)
    (hlabels : ¬ selection.Relabels c.table c.name) : ColumnRef.name c = c.name := by
  rcases name_of_resolve h with hname | ⟨hc, hlabel⟩
  · exact hname
  · by_contra hne
    exact hlabels ⟨c, hc, rfl, rfl, ColumnRef.name c, hlabel, hne⟩

/-- **Spellings of a column.** Two references to one column of a table pass the same
checks of all restrictions exactly if they lead to one name, and they do so if no output
column gives the column a label of its own. An input then ends as it does with maps under
the one reference put under the other, in the same error or in a filter of the same columns. -/
theorem check_spellings (h : (ofCatalog catalog selection).resolve reference = .ok c)
    (h' : (ofCatalog catalog selection).resolve reference' = .ok c') (htable : c.table = c'.table)
    (hname : c.name = c'.name) :
    ((∀ (set : RestrictionSet) (op : Operator),
        set.check (ColumnRef.name c) op = .ok () ↔ set.check (ColumnRef.name c') op = .ok ()) ↔
      ColumnRef.name c = ColumnRef.name c') ∧
    (¬ selection.Relabels c.table c.name → ColumnRef.name c = ColumnRef.name c') ∧
    (ColumnRef.name c = ColumnRef.name c' → ∀ settings set input input',
      input.Respelled reference reference' input' →
      Except.Rel (Filter.Alike Column.origin)
        (Compiler.compile ⟨ofCatalog catalog selection, settings, set⟩ input)
        (Compiler.compile ⟨ofCatalog catalog selection, settings, set⟩ input')) := by
  refine ⟨RestrictionSet.alike_iff, fun hlabels => ?_, fun hone settings set input input' hinput => ?_⟩
  · rw [name_of_not_relabels h hlabels, hname]
    exact (name_of_not_relabels h' (by rwa [← htable, ← hname])).symm
  · have horigin : c.origin = c'.origin := by rw [Column.origin, Column.origin, htable, hname]
    exact Compiler.compile_respelled ⟨c, c', h, h', hone, horigin⟩ hinput

/-- People by name, who are shown as they are. -/
def people : Resolver Column :=
  ofCatalog (.ofTables [⟨"tt", ["name"]⟩]) ⟨[.plain "tt" "name"]⟩

/-- At most five people who are called Ann, for which the name stands under a reference, or
who are not called Bob. -/
def fiveOf (reference : String) : FilterInput :=
  ⟨[.leaf "limit" (.int 5),
    .list "or" [.map "0" [.map reference [.leaf "eq" (.string "Ann")]],
      .map "1" [.map "name" [.leaf "ne" (.string "Bob")]]]]⟩

theorem respelled_fiveOf : (fiveOf "tt.name").Respelled "tt.name" "name" (fiveOf "name") := by
  have hqualified : InputNode.ReadAsColumn true "tt.name" := ⟨rfl, rfl, fun _ => rfl⟩
  have hplain : InputNode.ReadAsColumn true "name" := ⟨rfl, rfl, fun _ => rfl⟩
  have hann : InputNode.Respelled "tt.name" "name" true (.map "tt.name" [.leaf "eq" (.string "Ann")])
      (.map "name" [.leaf "eq" (.string "Ann")]) :=
    .column hqualified hplain (.cons (.leaf ..) .nil)
  have hbob : InputNode.Respelled "tt.name" "name" true (.map "name" [.leaf "ne" (.string "Bob")])
      (.map "name" [.leaf "ne" (.string "Bob")]) :=
    .map "name" (.cons (.leaf ..) .nil)
  exact .cons (.leaf ..) (.cons (.list "or" (.cons (.map "0" (.cons hann .nil))
    (.cons (.map "1" (.cons hbob .nil)) .nil))) .nil)

/-- What is refused through the table is refused without it. -/
theorem check_spellings_people :
    (people.resolve "tt.name" = .ok (Column.plain "tt" "name").qualify ∧
      people.resolve "name" = .ok (.plain "tt" "name") ∧
      ¬ Selection.Relabels ⟨[.plain "tt" "name"]⟩ "tt" "name" ∧
      (fiveOf "tt.name").Respelled "tt.name" "name" (fiveOf "name") ∧
      Compiler.compile ⟨people, .default, .refusing "name" .eq⟩ (fiveOf "tt.name") =
        .error (.notAllowed "name" .eq)) ∧
    Compiler.compile ⟨people, .default, .refusing "name" .eq⟩ (fiveOf "name") =
      .error (.notAllowed "name" .eq) := by
  have hlabels : ¬ Selection.Relabels ⟨[.plain "tt" "name"]⟩ "tt" "name" := by
    rintro ⟨c, hc, -, -, label, hlabel, -⟩
    rw [List.mem_singleton.mp hc] at hlabel
    cases hlabel
  have hqualified : people.resolve "tt.name" = .ok (Column.plain "tt" "name").qualify := rfl
  have hplain : people.resolve "name" = .ok (.plain "tt" "name") := rfl
  have hrefused : Compiler.compile ⟨people, .default, .refusing "name" .eq⟩ (fiveOf "tt.name") =
      .error (.notAllowed "name" .eq) := rfl
  refine ⟨⟨hqualified, hplain, hlabels, respelled_fiveOf, hrefused⟩, ?_⟩
  obtain ⟨-, hname, hcompile⟩ := check_spellings hqualified hplain rfl rfl
  have hends := hcompile (hname hlabels) .default (.refusing "name" .eq) _ _ respelled_fiveOf
  exact (hends.error_iff _).mp hrefused

/-- The column of the names, shown as `who`. -/
def who : Column := ⟨"tt", "name", some "who", false⟩

/-- People by name, who are shown under another label. -/
def relabelled : Resolver Column := ofCatalog (.ofTables [⟨"tt", ["name"]⟩]) ⟨[who]⟩

/-- A comparison that is refused under the name of a column passes under its label. -/
theorem check_relabelled :
    relabelled.resolve "tt.name" = .ok (Column.plain "tt" "name").qualify ∧
    relabelled.resolve "who" = .ok who ∧
    (Column.plain "tt" "name").qualify.table = who.table ∧
    (Column.plain "tt" "name").qualify.name = who.name ∧
    (RestrictionSet.refusing "name" .eq).check (ColumnRef.name (Column.plain "tt" "name").qualify)
        ⟨.eq, .string "Ann", by decide⟩ = .error (.notAllowed "name" .eq) ∧
    (RestrictionSet.refusing "name" .eq).check (ColumnRef.name who) ⟨.eq, .string "Ann", by decide⟩ =
      .ok () ∧
    Compiler.compile ⟨relabelled, .default, .refusing "name" .eq⟩
        ⟨[.map "who" [.leaf "eq" (.string "Ann")]]⟩ =
      .ok ⟨some (.leaf who ⟨.eq, .string "Ann", by decide⟩), .empty⟩ :=
  ⟨rfl, rfl, rfl, rfl, rfl, rfl, rfl⟩

end Resolver
end QueryFilter
